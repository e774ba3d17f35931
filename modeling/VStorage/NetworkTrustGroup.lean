/-
`network_trust.py` and `holder_server.py`: holders as servers behind sockets.

A holder answers requests in order with one line each, but its bytes may come late, in
any pieces, and stop anywhere; a reader may give up at any moment and leave what it has
not read to the next one.  The fetching threads and the monitor share the sockets under
one lock.

* `parseLine_genuine`: whatever a reader takes off a socket up to the end of a line, if
  it parses at all it is one of the lines that the holder sent.
* `returned_eq_secret`: so every fetch that returns, returns the secret.
-/
import Mathlib
import VStorage.Json
import VStorage.Runs
import VStorage.TrustGroup

namespace NetworkTrustGroup

open Json (Scans)

/-! ### Lines -/

/-- Two digits for each byte: `y.hex()`. -/
def hex (y : Bytes) : PyStr :=
  y.flatMap fun b => [Json.hexDigit (b.toNat / 16), Json.hexDigit (b.toNat % 16)]

def isHexSpace (c : ℕ) : Bool := c = 32 ∨ (9 ≤ c ∧ c ≤ 13)

/-- `bytes.fromhex`. -/
def fromHex : PyStr → Except PyError Bytes
  | [] => .ok []
  | [c] => if isHexSpace c then .ok [] else .error .valueError
  | c :: d :: rest =>
    if isHexSpace c then fromHex (d :: rest)
    else
      match Json.hexValue c, Json.hexValue d with
      | some high, some low => do return UInt8.ofNat (16 * high + low) :: (← fromHex rest)
      | _, _ => .error .valueError

/-- `.decode()`, strict: no overlong forms, no surrogates, nothing past U+10FFFF. -/
def decodeChar : Bytes → Option (ℕ × Bytes)
  | [] => none
  | a :: rest =>
    let continues (b : UInt8) : Bool := 0x80 ≤ b.toNat ∧ b.toNat < 0xC0
    if a.toNat < 0x80 then some (a.toNat, rest)
    else if 0xC2 ≤ a.toNat ∧ a.toNat < 0xE0 then
      match rest with
      | b :: rest =>
        if continues b then some ((a.toNat - 0xC0) * 64 + (b.toNat - 0x80), rest) else none
      | _ => none
    else if 0xE0 ≤ a.toNat ∧ a.toNat < 0xF0 then
      match rest with
      | b :: c :: rest =>
        let n := (a.toNat - 0xE0) * 4096 + (b.toNat - 0x80) * 64 + (c.toNat - 0x80)
        if continues b ∧ continues c ∧ 0x800 ≤ n ∧ ¬ (0xD800 ≤ n ∧ n < 0xE000) then
          some (n, rest)
        else none
      | _ => none
    else if 0xF0 ≤ a.toNat ∧ a.toNat < 0xF5 then
      match rest with
      | b :: c :: d :: rest =>
        let n := (a.toNat - 0xF0) * 262144 + (b.toNat - 0x80) * 4096 + (c.toNat - 0x80) * 64
          + (d.toNat - 0x80)
        if continues b ∧ continues c ∧ continues d ∧ 0x10000 ≤ n ∧ n < 0x110000 then
          some (n, rest)
        else none
      | _ => none
    else none

/-- The number bounds the passes of the loop. -/
def decodeLoop : ℕ → Bytes → Except PyError PyStr
  | _, [] => .ok []
  | 0, _ :: _ => .error .valueError
  | fuel + 1, b :: bs =>
    match decodeChar (b :: bs) with
    | none => .error .valueError
    | some (c, rest) => do return c :: (← decodeLoop fuel rest)

def decode (bs : Bytes) : Except PyError PyStr := decodeLoop bs.length bs

/-- `.encode()` of the ASCII that `json.dumps` makes. -/
def encode (s : PyStr) : Bytes := s.map UInt8.ofNat

/-- `(json.dumps(obj) + "\n").encode()`. -/
def line (v : Json) : Bytes := encode (v.dumps ++ ['\n'.toNat])

/-- `json.loads(buf.decode())`; values may be nested `depth + 1` deep. -/
def parseLine (depth : ℕ) (buf : Bytes) : Except PyError Json := do
  (← decode buf) |> Json.loads (depth + 1)

/-! ### Requests and replies -/

inductive Op
  | ping
  | getShare
  deriving DecidableEq, Repr

/-- What `_handle_connection` answers. -/
def reply (share : ℤ × Bytes) : Op → Json
  | .ping => .obj [(pyStr "pong", .bool true)]
  | .getShare => .obj [(pyStr "x", .int share.1), (pyStr "share_hex", .str (hex share.2))]

/-- `d[key]`. -/
def getItem (v : Json) (key : PyStr) : Except PyError Json :=
  match v with
  | .obj members =>
    match Json.lookup key members with
    | some w => .ok w
    | none => .error .keyError
  | _ => .error .typeError

/-- `(resp["x"], bytes.fromhex(resp["share_hex"]))`, for a whole number `x`. -/
def readShare (resp : Json) : Except PyError (ℤ × Bytes) := do
  let x ← getItem resp (pyStr "x")
  let shareHex ← getItem resp (pyStr "share_hex")
  let y ← match shareHex with
    | .str s => fromHex s
    | _ => .error .typeError
  match x with
  | .int n => return (n, y)
  | _ => .error .typeError

/-- `bool(v)`. -/
def truthy : Json → Bool
  | .null => false
  | .bool b => b
  | .int n => n ≠ 0
  | .float text => !Json.floatIsZero text
  | .str s => s ≠ []
  | .arr items => !items.isEmpty
  | .obj members => !members.isEmpty

/-- `bool(resp.get("pong"))`. -/
def readPong (resp : Json) : Except PyError Bool :=
  match resp with
  | .obj members => .ok ((Json.lookup (pyStr "pong") members).elim false truthy)
  | _ => .error .attributeError

/-! ### What a holder sends is read back -/

theorem hexValue_hexDigit {n : ℕ} (hn : n < 16) : Json.hexValue (Json.hexDigit n) = some n := by
  interval_cases n <;> rfl

theorem isHexSpace_hexDigit {n : ℕ} (hn : n < 16) : isHexSpace (Json.hexDigit n) = false := by
  interval_cases n <;> rfl

theorem plain_hexDigit {n : ℕ} (hn : n < 16) : Json.Plain (Json.hexDigit n) := by
  interval_cases n <;> decide

theorem plain_hex (y : Bytes) : ∀ c ∈ hex y, Json.Plain c := by
  intro c hc
  obtain ⟨b, -, hb⟩ := List.mem_flatMap.mp hc
  have hlt := b.toNat_lt
  rcases List.mem_cons.mp hb with rfl | hb
  · exact plain_hexDigit (by omega)
  · rw [List.mem_singleton.mp hb]
    exact plain_hexDigit (by omega)

theorem fromHex_hex (y : Bytes) : fromHex (hex y) = .ok y := by
  induction y with
  | nil => rfl
  | cons b y ih =>
    have hlt := b.toNat_lt
    have hb : 16 * (b.toNat / 16) + b.toNat % 16 = b.toNat := Nat.div_add_mod ..
    show fromHex (Json.hexDigit (b.toNat / 16) :: Json.hexDigit (b.toNat % 16) :: hex y) = _
    rw [fromHex, isHexSpace_hexDigit (by omega), if_neg (by decide),
      hexValue_hexDigit (by omega), hexValue_hexDigit (by omega), ih]
    dsimp only
    rw [hb, UInt8.ofNat_toNat]
    rfl

theorem decode_ascii {bs : Bytes} (h : ∀ b ∈ bs, b.toNat < 128) :
    decode bs = .ok (bs.map UInt8.toNat) := by
  have hloop : ∀ fuel, bs.length ≤ fuel → decodeLoop fuel bs = .ok (bs.map UInt8.toNat) := by
    induction bs with
    | nil => intro fuel _; cases fuel <;> rfl
    | cons b bs ih =>
      intro fuel hfuel
      obtain ⟨hb, hbs⟩ := List.forall_mem_cons.mp h
      cases fuel with
      | zero => simp at hfuel
      | succ fuel =>
        have hchar : decodeChar (b :: bs) = some (b.toNat, bs) := if_pos hb
        rw [decodeLoop, hchar]
        dsimp only
        rw [ih hbs fuel (by simpa using hfuel)]
        rfl
  exact hloop _ le_rfl

/-- A share that a holder can hold: its index counts from one. -/
def Dealt (share : ℤ × Bytes) : Prop := 0 ≤ share.1

theorem dumps_reply_share (share : ℤ × Bytes) (h : Dealt share) :
    (reply share .getShare).dumps = pyStr "\x7b\"x\": " ++ Json.decimal share.1.toNat
      ++ pyStr ", \"share_hex\": \"" ++ hex share.2 ++ pyStr "\"\x7d" := by
  have hx : ¬ share.1 < 0 := not_lt.mpr h
  have hkey : Json.dumpString (pyStr "x") = pyStr "\"x\"" := by decide
  have hkey' : Json.dumpString (pyStr "share_hex") = pyStr "\"share_hex\"" := by decide
  have habs : share.1.natAbs = share.1.toNat := by
    rw [Dealt] at h
    omega
  simp only [reply, Json.dumps, Json.dumpMembers, hkey, hkey',
    Json.dumpString_plain (plain_hex share.2), if_neg hx, habs]
  simp [pyStr]

theorem scans_reply {share : ℤ × Bytes} (h : Dealt share)
    (hlen : (Json.decimal share.1.toNat).length ≤ Json.maxDigits) (op : Op) (depth : ℕ) :
    Scans (depth + 1) (reply share op).dumps (reply share op) := by
  cases op with
  | ping =>
    refine Json.scans_obj (List.cons_ne_nil _ _) ?_ (by decide)
    intro m hm
    obtain rfl := List.mem_singleton.mp hm
    exact ⟨by decide, Json.scans_true depth⟩
  | getShare =>
    have hkeys : [pyStr "x", pyStr "share_hex"].Nodup := by decide
    have hx : ∀ c ∈ pyStr "x", Json.Plain c := by decide
    have hhex : ∀ c ∈ pyStr "share_hex", Json.Plain c := by decide
    refine Json.scans_obj (List.cons_ne_nil _ _) (fun m hm => ?_) hkeys
    rcases List.mem_cons.mp hm with rfl | hm
    · obtain ⟨n, hn⟩ := Int.eq_ofNat_of_zero_le h
      rw [hn, Int.toNat_natCast] at hlen
      have hdump : Json.dumps (.int share.1) = Json.decimal n := by
        rw [Json.dumps, hn, if_neg (by omega)]
        rfl
      refine ⟨hx, ?_⟩
      show Scans depth (Json.dumps (.int share.1)) (.int share.1)
      rw [hdump, hn]
      exact Json.scans_int hlen
    · obtain rfl := List.mem_singleton.mp hm
      exact ⟨hhex, Json.scans_str (plain_hex share.2)⟩

/-- A line that is read at all is read as the reply. -/
theorem loads_reply {share : ℤ × Bytes} (h : Dealt share) {op : Op} {depth : ℕ} {rest : PyStr}
    (hends : Json.Ends rest) {v : Json}
    (hv : Json.loads (depth + 1) ((reply share op).dumps ++ rest) = .ok v) :
    v = reply share op := by
  by_cases hlen : (Json.decimal share.1.toNat).length ≤ Json.maxDigits
  · exact ((Json.loads_of_scans (scans_reply h hlen op depth) hends).mp hv).1
  cases op with
  | ping =>
    have hscans := scans_reply (show Dealt (0, []) from le_rfl) (by decide) .ping depth
    exact ((Json.loads_of_scans hscans hends).mp hv).1
  | getShare =>
    -- an index that is too long for `int` is rejected
    exfalso
    have hshape : (reply share .getShare).dumps ++ rest
        = '{'.toNat :: (Json.dumpString (pyStr "x") ++ pyStr ": " ++ (Json.decimal share.1.toNat
          ++ (pyStr ", \"share_hex\": \"" ++ hex share.2 ++ pyStr "\"\x7d" ++ rest))) := by
      rw [dumps_reply_share share h]
      simp [pyStr, Json.dumpString, Json.escapeChar]
    have hends' : Json.Ends
        (pyStr ", \"share_hex\": \"" ++ hex share.2 ++ pyStr "\"\x7d" ++ rest) :=
      Json.ends_cons (by decide) _
    have hplain : ∀ c ∈ pyStr "x", Json.Plain c := by decide
    have hlong := Json.scanValue_long depth hplain (not_le.mp hlen) hends'
    have hskip : Json.skipSpace ((reply share .getShare).dumps ++ rest)
        = (reply share .getShare).dumps ++ rest := by
      rw [hshape]
      rfl
    rw [Json.loads, hskip, hshape, hlong, if_neg (by simp)] at hv
    cases hv

/-- A character of a line between its braces. -/
def Inner (c : ℕ) : Prop :=
  c < 128 ∧ c ≠ '{'.toNat ∧ c ≠ '['.toNat ∧ c ≠ '\\'.toNat ∧ c ≠ '\n'.toNat

instance (c : ℕ) : Decidable (Inner c) := inferInstanceAs (Decidable (_ ∧ _))

theorem inner_decimal {n c : ℕ} (h : c ∈ Json.decimal n) : Inner c := by
  have hc : 48 ≤ c ∧ c ≤ 57 := by simpa [Json.isDigit] using Json.isDigit_decimal h
  simp only [Inner, Char.reduceToNat]
  omega

theorem inner_hexDigit {n : ℕ} (hn : n < 16) : Inner (Json.hexDigit n) := by
  interval_cases n <;> decide

theorem inner_hex (y : Bytes) : ∀ c ∈ hex y, Inner c := by
  intro c hc
  obtain ⟨b, -, hb⟩ := List.mem_flatMap.mp hc
  have hlt := b.toNat_lt
  rcases List.mem_cons.mp hb with rfl | hb
  · exact inner_hexDigit (by omega)
  · rw [List.mem_singleton.mp hb]
    exact inner_hexDigit (by omega)

/-- A line opens one object, at its start, and closes it at its end. -/
theorem reply_shape {share : ℤ × Bytes} (h : Dealt share) (op : Op) :
    ∃ t, (reply share op).dumps = '{'.toNat :: t ++ ['}'.toNat] ∧ ∀ c ∈ t, Inner c := by
  cases op with
  | ping =>
    refine ⟨pyStr "\"pong\": true", ?_, by decide⟩
    show Json.dumps (.obj [(pyStr "pong", .bool true)]) = _
    decide
  | getShare =>
    refine ⟨pyStr "\"x\": " ++ Json.decimal share.1.toNat ++ pyStr ", \"share_hex\": \""
      ++ hex share.2 ++ pyStr "\"", ?_, ?_⟩
    · rw [dumps_reply_share share h]
      simp [pyStr]
    · have h1 : ∀ c ∈ pyStr "\"x\": ", Inner c := by decide
      have h2 : ∀ c ∈ pyStr ", \"share_hex\": \"", Inner c := by decide
      have h3 : ∀ c ∈ pyStr "\"", Inner c := by decide
      intro c hc
      simp only [List.mem_append] at hc
      rcases hc with (((hc | hc) | hc) | hc) | hc
      · exact h1 c hc
      · exact inner_decimal hc
      · exact h2 c hc
      · exact inner_hex _ c hc
      · exact h3 c hc

/-! ### What is left on a socket -/

/-- A line, as text. -/
def lineText (share : ℤ × Bytes) (op : Op) : PyStr := (reply share op).dumps ++ ['\n'.toNat]

/-- A reader that stops at a newline has taken in all of the text before the first one. -/
theorem exists_of_endsWith {text r s : PyStr} (body : PyStr) {c : ℕ} (h : text ++ r = body ++ c :: s)
    (hbody : c ∉ body) (hlast : text.getLast? = some c) : ∃ text', text = body ++ c :: text' := by
  have hmem := List.mem_of_getLast? hlast
  rcases List.append_eq_append_iff.mp h with ⟨a, rfl, -⟩ | ⟨a, rfl, ha⟩
  · exact absurd (List.mem_append_left a hmem) hbody
  · cases a with
    | nil => exact absurd (by simpa using hmem) hbody
    | cons d a =>
      obtain ⟨rfl, -⟩ := List.cons.inj ha
      exact ⟨a, rfl⟩

theorem newline_notMem {share : ℤ × Bytes} (h : Dealt share) (op : Op) :
    '\n'.toNat ∉ (reply share op).dumps := by
  obtain ⟨t, ht, hinner⟩ := reply_shape h op
  rw [ht]
  intro hmem
  simp only [List.mem_append, List.mem_cons] at hmem
  rcases hmem with (hmem | hmem) | hmem
  · exact absurd hmem (by decide)
  · exact (hinner _ hmem).2.2.2.2 rfl
  · rcases hmem with hmem | hmem
    · exact absurd hmem (by decide)
    · exact nomatch hmem

/-- From the start of a line on, only that line can be read. -/
theorem loads_lines {share : ℤ × Bytes} (h : Dealt share) (depth : ℕ) {ops : List Op}
    {text r : PyStr} (htext : text ++ r = (ops.map (lineText share)).flatten)
    (hlast : text.getLast? = some '\n'.toNat) :
    text.head? ≠ some 0xFEFF ∧
      ∀ v, Json.loads (depth + 1) text = .ok v → ∃ op, v = reply share op := by
  cases ops with
  | nil =>
    rw [(List.append_eq_nil_iff.mp htext).1] at hlast
    exact nomatch hlast
  | cons op ops =>
    have hsplit : text ++ r
        = (reply share op).dumps ++ '\n'.toNat :: (ops.map (lineText share)).flatten := by
      rw [htext, List.map_cons, List.flatten_cons, lineText, List.append_assoc]
      rfl
    obtain ⟨text', rfl⟩ := exists_of_endsWith _ hsplit (newline_notMem h op) hlast
    refine ⟨?_, fun v hv => ⟨op, ?_⟩⟩
    · obtain ⟨t, ht, -⟩ := reply_shape h op
      rw [ht]
      simp
    · exact loads_reply h (Json.ends_cons (by decide) text') hv

/-- What is left of a line that has been read in part. -/
theorem suffix_cases {share : ℤ × Bytes} (h : Dealt share) {op : Op} {u : PyStr}
    (hu : u <:+ lineText share op) :
    u = [] ∨ u = ['\n'.toNat] ∨ u = lineText share op ∨
      ∃ t, u = t ++ ['}'.toNat, '\n'.toNat] ∧ ∀ c ∈ t, Inner c := by
  obtain ⟨t, ht, hinner⟩ := reply_shape h op
  have hline : lineText share op = '{'.toNat :: (t ++ ['}'.toNat, '\n'.toNat]) := by
    rw [lineText, ht]
    simp
  rw [hline] at hu ⊢
  rcases List.suffix_cons_iff.mp hu with rfl | ⟨p, hp⟩
  · exact Or.inr (Or.inr (Or.inl rfl))
  · rcases List.append_eq_append_iff.mp hp with ⟨a, rfl, ha⟩ | ⟨a, rfl, ha⟩
    · exact Or.inr (Or.inr (Or.inr ⟨a, ha, fun c hc =>
        hinner c (List.mem_append_right _ hc)⟩))
    · match a, ha with
      | [], ha => exact Or.inr (Or.inr (Or.inr ⟨[], ha.symm, nofun⟩))
      | [_], ha =>
        obtain ⟨-, ha⟩ := List.cons.inj ha
        exact Or.inr (Or.inl ha.symm)
      | _ :: _ :: a, ha =>
        obtain ⟨-, ha⟩ := List.cons.inj ha
        obtain ⟨-, ha⟩ := List.cons.inj ha
        exact Or.inl (List.append_eq_nil_iff.mp ha.symm).2

/-- **Stale bytes.**  A reader that starts anywhere in a line, and stops at the end of
one, reads one whole line or nothing. -/
theorem loads_stale {share : ℤ × Bytes} (h : Dealt share) {depth : ℕ} {op : Op} {ops : List Op}
    {u text r : PyStr} (hu : u <:+ lineText share op)
    (htext : text ++ r = u ++ (ops.map (lineText share)).flatten)
    (hlast : text.getLast? = some '\n'.toNat) {v : Json}
    (hv : Json.loads (depth + 1) text = .ok v) : ∃ op, v = reply share op := by
  rcases suffix_cases h hu with rfl | rfl | rfl | ⟨t, rfl, hinner⟩
  · exact (loads_lines h depth htext hlast).2 v hv
  · -- the newline of the last line was left over
    obtain ⟨text', rfl⟩ := exists_of_endsWith [] htext (by simp) hlast
    rw [List.nil_append] at hv hlast
    have htext' : text' ++ r = (ops.map (lineText share)).flatten := (List.cons.inj htext).2
    cases text' with
    | nil =>
      rw [Json.loads_newline _ (by simp)] at hv
      exact nomatch hv
    | cons c text' =>
      rw [List.getLast?_cons_cons] at hlast
      obtain ⟨hbom, hgood⟩ := loads_lines h depth htext' hlast
      rw [Json.loads_newline _ hbom] at hv
      exact hgood v hv
  · have htext' : text ++ r = ((op :: ops).map (lineText share)).flatten := htext
    exact (loads_lines h depth htext' hlast).2 v hv
  · -- the line has lost its opening brace
    have hsplit : text ++ r
        = (t ++ ['}'.toNat]) ++ '\n'.toNat :: (ops.map (lineText share)).flatten := by
      rw [htext]
      simp
    have hbody : '\n'.toNat ∉ t ++ ['}'.toNat] := by
      intro hmem
      rcases List.mem_append.mp hmem with hmem | hmem
      · exact (hinner _ hmem).2.2.2.2 rfl
      · exact absurd hmem (by decide)
    obtain ⟨text', rfl⟩ := exists_of_endsWith _ hsplit hbody hlast
    rw [List.append_assoc] at hv
    exact absurd hv (Json.loads_unopened fun c hc =>
      ⟨(hinner c hc).2.1, (hinner c hc).2.2.1, (hinner c hc).2.2.2.1⟩)

theorem lineText_ascii {share : ℤ × Bytes} (h : Dealt share) (op : Op) :
    ∀ c ∈ lineText share op, c < 128 := by
  obtain ⟨t, ht, hinner⟩ := reply_shape h op
  intro c hc
  rw [lineText, ht] at hc
  simp only [List.mem_append, List.mem_cons, List.not_mem_nil, or_false] at hc
  rcases hc with ((rfl | hc) | rfl) | rfl
  · decide
  · exact (hinner c hc).1
  · decide
  · decide

theorem toNat_line {share : ℤ × Bytes} (h : Dealt share) (op : Op) :
    (line (reply share op)).map UInt8.toNat = lineText share op := by
  rw [line, encode, List.map_map]
  refine (List.map_congr_left fun c hc => ?_).trans (List.map_id _)
  have := lineText_ascii h op c hc
  simp only [Function.comp_apply, UInt8.toNat_ofNat', id_eq]
  omega

/-- The end of a line, and whole lines after it. -/
def Tail (share : ℤ × Bytes) (s : Bytes) : Prop :=
  ∃ (u : Bytes) (op : Op) (ops : List Op), u <:+ line (reply share op) ∧
    s = u ++ (ops.map fun op => line (reply share op)).flatten

theorem tail_nil (share : ℤ × Bytes) : Tail share [] := ⟨[], .ping, [], List.nil_suffix, rfl⟩

theorem Tail.append {share : ℤ × Bytes} {s : Bytes} (h : Tail share s) (op : Op) :
    Tail share (s ++ line (reply share op)) := by
  obtain ⟨u, op', ops, hu, rfl⟩ := h
  exact ⟨u, op', ops ++ [op], hu, by simp⟩

/-- What has been read of a tail leaves a tail. -/
theorem Tail.drop {share : ℤ × Bytes} {a s : Bytes} (h : Tail share (a ++ s)) :
    Tail share s := by
  obtain ⟨u, op, ops, hu, h⟩ := h
  induction ops generalizing u op a with
  | nil =>
    rw [List.map_nil, List.flatten_nil, List.append_nil] at h
    exact ⟨s, op, [], (List.suffix_append a s).trans (h ▸ hu), by simp⟩
  | cons op' ops ih =>
    rcases List.append_eq_append_iff.mp h with ⟨a', rfl, rfl⟩ | ⟨a', rfl, ha⟩
    · exact ⟨a', op, op' :: ops, (List.suffix_append a a').trans hu, rfl⟩
    · rw [List.map_cons, List.flatten_cons] at ha
      exact ih (line (reply share op')) op' List.suffix_rfl ha.symm

/-- **Reading a line.**  Whatever has come off a socket up to the end of a line is, if
it parses, a reply of its holder. -/
theorem parseLine_genuine {share : ℤ × Bytes} (hshare : Dealt share) {depth : ℕ}
    {buf r : Bytes} (h : Tail share (buf ++ r)) (hlast : buf.getLast? = some 10) {v : Json}
    (hv : parseLine depth buf = .ok v) : ∃ op, v = reply share op := by
  obtain ⟨u, op, ops, hu, h⟩ := h
  have htext : buf.map UInt8.toNat ++ r.map UInt8.toNat
      = u.map UInt8.toNat ++ (ops.map (lineText share)).flatten := by
    rw [← List.map_append, h, List.map_append, List.map_flatten, List.map_map]
    congr 2
    exact List.map_congr_left fun op _ => toNat_line hshare op
  have hu' : u.map UInt8.toNat <:+ lineText share op := by
    rw [← toNat_line hshare op]
    exact hu.map _
  have hascii : ∀ b ∈ buf, b.toNat < 128 := by
    intro b hb
    have hmem : b.toNat ∈ u.map UInt8.toNat ++ (ops.map (lineText share)).flatten :=
      htext ▸ List.mem_append_left _ (List.mem_map_of_mem hb)
    rcases List.mem_append.mp hmem with hmem | hmem
    · exact lineText_ascii hshare op _ (hu'.subset hmem)
    · obtain ⟨l, hl, hb⟩ := List.mem_flatten.mp hmem
      obtain ⟨op', -, rfl⟩ := List.mem_map.mp hl
      exact lineText_ascii hshare op' _ hb
  rw [parseLine, decode_ascii hascii, ok_bind] at hv
  exact loads_stale hshare hu' htext (by rw [List.getLast?_map, hlast]; rfl) hv

/-- A whole line, and nothing else, is read back. -/
theorem parseLine_line {share : ℤ × Bytes} (h : Dealt share)
    (hlen : (Json.decimal share.1.toNat).length ≤ Json.maxDigits) (op : Op) (depth : ℕ) :
    parseLine depth (line (reply share op)) = .ok (reply share op) := by
  have hascii : ∀ b ∈ line (reply share op), b.toNat < 128 := by
    intro b hb
    refine lineText_ascii h op _ ?_
    rw [← toNat_line h op]
    exact List.mem_map_of_mem hb
  rw [parseLine, decode_ascii hascii, ok_bind, toNat_line h op, lineText]
  exact (Json.loads_of_scans (scans_reply h hlen op depth)
    (Json.ends_cons (by decide) [])).mpr ⟨rfl, rfl⟩

theorem readShare_getShare (share : ℤ × Bytes) :
    readShare (reply share .getShare) = .ok share := by
  have hread : readShare (reply share .getShare) = (do
      let y ← fromHex (hex share.2)
      return (share.1, y)) := rfl
  rw [hread, fromHex_hex, ok_bind]
  rfl

theorem readShare_reply {share : ℤ × Bytes} {op : Op} {x : ℤ} {y : Bytes}
    (h : readShare (reply share op) = .ok (x, y)) : (x, y) = share := by
  cases op with
  | ping => exact nomatch h
  | getShare =>
    rw [readShare_getShare] at h
    exact (Except.ok.inj h).symm

/-! ### The group -/

/-- A connection: the requests the holder has not answered, the bytes it has sent that
have not been read, and whether it has gone. -/
structure Sock where
  requests : List Op
  wire : Bytes
  closed : Bool

/-- `_send`, then `_recv_line` with what it has read so far. -/
inductive Talk
  | toSend
  | receiving (buf : Bytes)

/-- What a step of an exchange comes to. -/
inductive Heard
  | more (talk : Talk)
  | done (result : Except PyError Json)

/-- A step of `_send` and `_recv_line` on the socket of holder `i`.  `recv` returns any
part of what has been sent, at most 4096 bytes of it, and a timeout or an error can
come at any moment, even when the request has gone out. -/
inductive Exchange (depth : ℕ) (op : Op) (w : ℕ → Sock) (i : ℕ) :
    Talk → (ℕ → Sock) → Heard → Prop
  | send : Exchange depth op w i .toSend
      (Function.update w i { w i with requests := (w i).requests ++ [op] })
      (.more (.receiving []))
  | sendError : Exchange depth op w i .toSend w (.done (.error .osError))
  | sentError : Exchange depth op w i .toSend
      (Function.update w i { w i with requests := (w i).requests ++ [op] })
      (.done (.error .osError))
  | chunk {buf c rest : Bytes} : (w i).wire = c ++ rest → c ≠ [] → c.length ≤ 4096 →
      (buf ++ c).getLast? ≠ some 10 →
      Exchange depth op w i (.receiving buf) (Function.update w i { w i with wire := rest })
        (.more (.receiving (buf ++ c)))
  | line {buf c rest : Bytes} : (w i).wire = c ++ rest → c ≠ [] → c.length ≤ 4096 →
      (buf ++ c).getLast? = some 10 →
      Exchange depth op w i (.receiving buf) (Function.update w i { w i with wire := rest })
        (.done (parseLine depth (buf ++ c)))
  | eof {buf : Bytes} : (w i).closed = true → (w i).wire = [] →
      Exchange depth op w i (.receiving buf) w (.done (.error .eofError))
  | timeout {buf : Bytes} : Exchange depth op w i (.receiving buf) w (.done (.error .osError))

/-- What `fetch` makes of it. -/
inductive FetchTalk (depth : ℕ) (w : ℕ → Sock) (i : ℕ) (talk : Talk) (w' : ℕ → Sock) :
    Progress Talk → Prop
  | more {talk' : Talk} : Exchange depth .getShare w i talk w' (.more talk') →
      FetchTalk depth w i talk w' (.more talk')
  | reply {v : Json} {x : ℤ} {y : Bytes} :
      Exchange depth .getShare w i talk w' (.done (.ok v)) → readShare v = .ok (x, y) →
      FetchTalk depth w i talk w' (.reply x y)
  | unread {v : Json} {e : PyError} :
      Exchange depth .getShare w i talk w' (.done (.ok v)) → readShare v = .error e →
      FetchTalk depth w i talk w' (.raises e)
  | raises {e : PyError} : Exchange depth .getShare w i talk w' (.done (.error e)) →
      FetchTalk depth w i talk w' (.raises e)

/-- `except (OSError, EOFError, ValueError, KeyError)`. -/
def caught (e : PyError) : Bool :=
  e = .osError ∨ e = .eofError ∨ e = .valueError ∨ e = .keyError

/-- `_ping`: its answer, or an exception that it does not catch. -/
def pong (result : Except PyError Json) : Except PyError Bool :=
  match result >>= readPong with
  | .ok b => .ok b
  | .error e => if e = .osError ∨ e = .eofError ∨ e = .valueError then .ok false else .error e

def protocol (k n : ℕ) (killThreshold : ℤ) (depth : ℕ) : Protocol (ℕ → Sock) Talk where
  k := k
  n := n
  killThreshold := killThreshold
  caught := caught
  start := .toSend
  talk := FetchTalk depth

/-- Where the monitor thread is. -/
inductive Monitor
  | testing (i : ℕ)
  | waiting (i : ℕ)
  | pinging (i : ℕ) (talk : Talk)
  | marking (i : ℕ) (mark : Mark)
  | ended

/-- The steps of `_monitor`. -/
inductive MonitorStep (n : ℕ) (killThreshold : ℤ) (depth : ℕ) :
    TrustGroup (ℕ → Sock) → Monitor → TrustGroup (ℕ → Sock) → Monitor → Prop
  | skip {g : TrustGroup (ℕ → Sock)} {i : ℕ} : i < n → i ∈ g.tally.compromised →
      MonitorStep n killThreshold depth g (.testing i) g (.testing (i + 1))
  | ping {g : TrustGroup (ℕ → Sock)} {i : ℕ} : i < n → i ∉ g.tally.compromised →
      MonitorStep n killThreshold depth g (.testing i) g (.waiting i)
  | sleep {g : TrustGroup (ℕ → Sock)} :
      MonitorStep n killThreshold depth g (.testing n) g (.testing 0)
  | acquire {g : TrustGroup (ℕ → Sock)} {i : ℕ} : g.lock = none →
      MonitorStep n killThreshold depth g (.waiting i)
        { g with lock := some .monitor } (.pinging i .toSend)
  | more {g : TrustGroup (ℕ → Sock)} {i : ℕ} {talk talk' : Talk} {w : ℕ → Sock} :
      Exchange depth .ping g.world i talk w (.more talk') →
      MonitorStep n killThreshold depth g (.pinging i talk)
        { g with world := w } (.pinging i talk')
  | alive {g : TrustGroup (ℕ → Sock)} {i : ℕ} {talk : Talk} {w : ℕ → Sock}
      {result : Except PyError Json} : Exchange depth .ping g.world i talk w (.done result) →
      pong result = .ok true →
      MonitorStep n killThreshold depth g (.pinging i talk)
        { g with world := w, lock := none } (.testing (i + 1))
  | dead {g : TrustGroup (ℕ → Sock)} {i : ℕ} {talk : Talk} {w : ℕ → Sock}
      {result : Except PyError Json} : Exchange depth .ping g.world i talk w (.done result) →
      pong result = .ok false →
      MonitorStep n killThreshold depth g (.pinging i talk)
        { g with world := w, lock := none } (.marking i .check)
  | raise {g : TrustGroup (ℕ → Sock)} {i : ℕ} {talk : Talk} {w : ℕ → Sock}
      {result : Except PyError Json} {e : PyError} :
      Exchange depth .ping g.world i talk w (.done result) → pong result = .error e →
      MonitorStep n killThreshold depth g (.pinging i talk)
        { g with world := w, lock := none } .ended
  | mark {g : TrustGroup (ℕ → Sock)} {i : ℕ} {mark : Mark} : mark ≠ .done →
      MonitorStep n killThreshold depth g (.marking i mark)
        { g with tally := (mark.step killThreshold i g.tally).1 }
        (.marking i (mark.step killThreshold i g.tally).2)
  | marked {g : TrustGroup (ℕ → Sock)} {i : ℕ} :
      MonitorStep n killThreshold depth g (.marking i .done) g (.testing (i + 1))

structure State where
  group : TrustGroup (ℕ → Sock)
  fetchers : ℕ → FetchPhase Talk
  monitor : Monitor

def start : State where
  group := { world := fun _ => ⟨[], [], false⟩, tally := .new, lock := none }
  fetchers := fun _ => .idle
  monitor := .testing 0

inductive Event
  | fetcher (t : ℕ) (news : News)
  | monitor
  | answer (i : ℕ)
  | cut (i : ℕ)

/-- Replace one connection. -/
def State.setSock (s : State) (i : ℕ) (sock : Sock) : State :=
  { s with group := { s.group with world := Function.update s.group.world i sock } }

/-- One step of anyone.  A holder answers its next request; or the connection goes, and
takes with it any part of what has not been read. -/
inductive Step (shares : List (ℤ × Bytes)) (p : Protocol (ℕ → Sock) Talk) (depth : ℕ) :
    State → Event → State → Prop
  | fetcher {s : State} {t : ℕ} {phase phase' : FetchPhase Talk} {news : News}
      {g : TrustGroup (ℕ → Sock)} : s.group.tally.killed = false → s.fetchers t = phase →
      FetchStep p t s.group phase news g phase' →
      Step shares p depth s (.fetcher t news)
        { s with group := g, fetchers := Function.update s.fetchers t phase' }
  | monitor {s : State} {g : TrustGroup (ℕ → Sock)} {monitor : Monitor} :
      s.group.tally.killed = false →
      MonitorStep p.n p.killThreshold depth s.group s.monitor g monitor →
      Step shares p depth s .monitor { s with group := g, monitor := monitor }
  | answer {s : State} {i : ℕ} {op : Op} {rest : List Op} :
      (s.group.world i).closed = false → (s.group.world i).requests = op :: rest →
      Step shares p depth s (.answer i) (s.setSock i
        { s.group.world i with
          requests := rest
          wire := (s.group.world i).wire ++ line (reply (shares.getD i default) op) })
  | cut {s : State} {i m : ℕ} :
      Step shares p depth s (.cut i) (s.setSock i
        { s.group.world i with closed := true, wire := (s.group.world i).wire.take m })

/-- What thread `t` has been told in a run. -/
def Event.note (t : ℕ) (notes : Notes) : Event → Notes
  | .fetcher u news => if u = t then notes.read news else notes
  | _ => notes

def notes (t : ℕ) (events : List Event) : Notes := events.foldl (Event.note t) .blank

theorem notes_snoc (t : ℕ) (events : List Event) (event : Event) :
    notes t (events ++ [event]) = event.note t (notes t events) :=
  List.foldl_append ..

/-! ### Safety -/

/-- What a reader has read. -/
def Talk.read : Talk → Bytes
  | .toSend => []
  | .receiving buf => buf

/-- What has been read off a connection, what is on it, and what was cut off: the end
of a line, and whole lines after it.  Nothing is missing while the connection stands. -/
def Readable (share : ℤ × Bytes) (sock : Sock) (buf : Bytes) : Prop :=
  ∃ lost, Tail share (buf ++ sock.wire ++ lost) ∧ (sock.closed = false → lost = [])

theorem readable_new (share : ℤ × Bytes) : Readable share ⟨[], [], false⟩ [] :=
  ⟨[], tail_nil share, fun _ => rfl⟩

/-- The next reader starts where this one stopped. -/
theorem Readable.fresh {share : ℤ × Bytes} {sock : Sock} {buf : Bytes}
    (h : Readable share sock buf) : Readable share sock [] := by
  obtain ⟨lost, htail, hlost⟩ := h
  rw [List.append_assoc] at htail
  exact ⟨lost, htail.drop, hlost⟩

/-- A reader takes bytes off the connection. -/
theorem Readable.recv {share : ℤ × Bytes} {sock : Sock} {buf c rest : Bytes}
    (h : Readable share sock buf) (hwire : sock.wire = c ++ rest) :
    Readable share { sock with wire := rest } (buf ++ c) := by
  obtain ⟨lost, htail, hlost⟩ := h
  rw [hwire, ← List.append_assoc] at htail
  exact ⟨lost, htail, hlost⟩

/-- The holder answers. -/
theorem Readable.answer {share : ℤ × Bytes} {sock : Sock} {buf : Bytes}
    (h : Readable share sock buf) (hopen : sock.closed = false) (requests : List Op) (op : Op) :
    Readable share { sock with requests := requests, wire := sock.wire ++ line (reply share op) }
      buf := by
  obtain ⟨lost, htail, hlost⟩ := h
  obtain rfl := hlost hopen
  rw [List.append_nil] at htail
  refine ⟨[], ?_, fun _ => rfl⟩
  rw [List.append_nil, ← List.append_assoc]
  exact htail.append op

/-- The connection goes. -/
theorem Readable.cut {share : ℤ × Bytes} {sock : Sock} {buf : Bytes}
    (h : Readable share sock buf) (m : ℕ) :
    Readable share { sock with closed := true, wire := sock.wire.take m } buf := by
  obtain ⟨lost, htail, -⟩ := h
  refine ⟨sock.wire.drop m ++ lost, ?_, fun hopen => nomatch hopen⟩
  rwa [← List.append_assoc, List.append_assoc buf, List.take_append_drop]

/-- Every connection is fit for a reader that starts, the `i`-th one also for the reader
that has read `buf`. -/
structure Fit (shares : List (ℤ × Bytes)) (w : ℕ → Sock) (i : ℕ) (buf : Bytes) : Prop where
  fresh : ∀ j, Readable (shares.getD j default) (w j) []
  reading : Readable (shares.getD i default) (w i) buf

theorem Fit.update {shares : List (ℤ × Bytes)} {w : ℕ → Sock} {i : ℕ} {sock : Sock}
    {buf : Bytes} (h : ∀ j, Readable (shares.getD j default) (w j) [])
    (hi : Readable (shares.getD i default) sock buf) :
    Fit shares (Function.update w i sock) i buf := by
  refine ⟨fun j => ?_, by rwa [Function.update_self]⟩
  by_cases hj : j = i
  · subst hj
    rw [Function.update_self]
    exact hi.fresh
  · rw [Function.update_of_ne hj]
    exact h j

/-- An exchange leaves every connection fit, and its own for its next step. -/
theorem Exchange.fit {shares : List (ℤ × Bytes)} {depth i : ℕ} {op : Op} {w w' : ℕ → Sock}
    {talk : Talk} {heard : Heard} (h : Exchange depth op w i talk w' heard)
    (hw : Fit shares w i talk.read) :
    (∀ j, Readable (shares.getD j default) (w' j) []) ∧
      ∀ talk', heard = .more talk' → Fit shares w' i talk'.read := by
  cases h with
  | send =>
    have hfit : Fit shares (Function.update w i { w i with requests := (w i).requests ++ [op] })
        i [] := .update hw.fresh (hw.fresh i)
    refine ⟨hfit.fresh, fun talk' htalk => ?_⟩
    obtain rfl := Heard.more.inj htalk
    exact hfit
  | sendError => exact ⟨hw.fresh, fun _ htalk => nomatch htalk⟩
  | sentError =>
    have hfit : Fit shares (Function.update w i { w i with requests := (w i).requests ++ [op] })
        i [] := .update hw.fresh (hw.fresh i)
    exact ⟨hfit.fresh, fun _ htalk => nomatch htalk⟩
  | chunk hwire _ _ _ =>
    have hfit := Fit.update hw.fresh (hw.reading.recv hwire)
    refine ⟨hfit.fresh, fun talk' htalk => ?_⟩
    obtain rfl := Heard.more.inj htalk
    exact hfit
  | line hwire _ _ _ =>
    exact ⟨(Fit.update hw.fresh (hw.reading.recv hwire)).fresh, fun _ htalk => nomatch htalk⟩
  | eof => exact ⟨hw.fresh, fun _ htalk => nomatch htalk⟩
  | timeout => exact ⟨hw.fresh, fun _ htalk => nomatch htalk⟩

/-- **Exchanges.**  What an exchange hears is a reply of the holder, to whatever
request. -/
theorem Exchange.genuine {shares : List (ℤ × Bytes)} {depth i : ℕ} {op : Op} {w w' : ℕ → Sock}
    {talk : Talk} {v : Json} (h : Exchange depth op w i talk w' (.done (.ok v)))
    (hi : Readable (shares.getD i default) (w i) talk.read)
    (hdealt : Dealt (shares.getD i default)) : ∃ op, v = reply (shares.getD i default) op := by
  generalize hheard : Heard.done (.ok v) = heard at h
  cases h with
  | @line buf c rest hwire _ _ hlast =>
    obtain ⟨lost, htail, -⟩ := hi.recv hwire
    rw [List.append_assoc] at htail
    exact parseLine_genuine hdealt htail hlast (Heard.done.inj hheard).symm
  | _ => exact nomatch hheard

/-- What the owner of the lock is asking, and whom. -/
def State.exchange (s : State) : Owner → Option (ℕ × Talk)
  | .fetcher t =>
    match s.fetchers t with
    | .asking (i :: _) _ talk => some (i, talk)
    | _ => none
  | .monitor =>
    match s.monitor with
    | .pinging i talk => some (i, talk)
    | _ => none

/-- The invariant: only the owner of the lock reads, every connection is fit for the next
reader and for the one it has, and the threads have seen genuine shares only. -/
structure Inv (p : Protocol (ℕ → Sock) Talk) (shares : List (ℤ × Bytes)) (events : List Event)
    (s : State) : Prop where
  fresh : ∀ j, Readable (shares.getD j default) (s.group.world j) []
  reading : ∀ owner i talk, s.exchange owner = some (i, talk) →
    Readable (shares.getD i default) (s.group.world i) talk.read
  locked : ∀ t, (s.fetchers t).Locked → s.group.lock = some (.fetcher t)
  pinging : ∀ i talk, s.monitor = .pinging i talk → s.group.lock = some .monitor
  observed : ∀ t, Observed p shares (notes t events) (s.fetchers t)

theorem inv_start (p : Protocol (ℕ → Sock) Talk) (shares : List (ℤ × Bytes)) :
    Inv p shares [] start where
  fresh j := readable_new _
  reading owner i talk h := by cases owner <;> exact nomatch h
  locked _ h := h.elim
  pinging _ _ h := nomatch h
  observed _ := observed_blank p shares

theorem FetchTalk.exchange {depth i : ℕ} {w w' : ℕ → Sock} {talk : Talk}
    {progress : Progress Talk} (h : FetchTalk depth w i talk w' progress) :
    ∃ heard, Exchange depth .getShare w i talk w' heard ∧
      ∀ talk', progress = .more talk' → heard = .more talk' := by
  cases h with
  | more h => exact ⟨_, h, fun _ heq => congrArg _ (Progress.more.inj heq)⟩
  | reply h _ => exact ⟨_, h, fun _ heq => nomatch heq⟩
  | unread h _ => exact ⟨_, h, fun _ heq => nomatch heq⟩
  | raises h => exact ⟨_, h, fun _ heq => nomatch heq⟩

theorem FetchTalk.reply_genuine {shares : List (ℤ × Bytes)} {depth i : ℕ} {w w' : ℕ → Sock}
    {talk : Talk} {x : ℤ} {y : Bytes} (h : FetchTalk depth w i talk w' (.reply x y))
    (hi : Readable (shares.getD i default) (w i) talk.read)
    (hdealt : Dealt (shares.getD i default)) : (x, y) = shares.getD i default := by
  cases h with
  | reply h hread =>
    obtain ⟨op, rfl⟩ := h.genuine hi hdealt
    exact readShare_reply hread

section Invariant

variable {k n depth : ℕ} {killThreshold : ℤ} {shares : List (ℤ × Bytes)} {events : List Event}
  {s s' : State}

theorem Inv.owns {p : Protocol (ℕ → Sock) Talk} (h : Inv p shares events s) {owner : Owner} {i : ℕ}
    {talk : Talk} (hex : s.exchange owner = some (i, talk)) : s.group.lock = some owner := by
  cases owner with
  | fetcher t =>
    refine h.locked t ?_
    cases hphase : s.fetchers t with
    | asking => trivial
    | _ => simp [State.exchange, hphase] at hex
  | monitor =>
    cases hmonitor : s.monitor with
    | pinging j talk' => exact h.pinging j talk' hmonitor
    | _ => simp [State.exchange, hmonitor] at hex

theorem Inv.fit {p : Protocol (ℕ → Sock) Talk} (h : Inv p shares events s) (owner : Owner) {i : ℕ}
    {talk : Talk} (hex : s.exchange owner = some (i, talk)) :
    Fit shares s.group.world i talk.read := ⟨h.fresh, h.reading owner i talk hex⟩

/-- A step of `fetch` leaves every connection fit, and the one it goes on with. -/
theorem Inv.fetch_fit (h : Inv (protocol k n killThreshold depth) shares events s) {t : ℕ}
    {phase phase' : FetchPhase Talk} {news : News} {g : TrustGroup (ℕ → Sock)}
    (hphase : s.fetchers t = phase)
    (hstep : FetchStep (protocol k n killThreshold depth) t s.group phase news g phase') :
    (∀ j, Readable (shares.getD j default) (g.world j) []) ∧
      ∀ i rest collected talk, phase' = .asking (i :: rest) collected talk →
        Readable (shares.getD i default) (g.world i) talk.read := by
  have hfit : ∀ {i rest collected talk}, phase = .asking (i :: rest) collected talk →
      Fit shares s.group.world i talk.read := by
    intro i rest collected talk heq
    exact h.fit (.fetcher t) (by rw [State.exchange, hphase, heq])
  cases hstep with
  | acquire =>
    refine ⟨h.fresh, fun i rest collected talk heq => ?_⟩
    obtain ⟨-, -, rfl⟩ := FetchPhase.asking.inj heq
    exact h.fresh i
  | more htalk =>
    obtain ⟨heard, hexchange, hmore⟩ := FetchTalk.exchange htalk
    obtain ⟨hfresh, hreading⟩ := hexchange.fit (hfit rfl)
    refine ⟨hfresh, fun i rest collected talk heq => ?_⟩
    obtain ⟨hi, -, rfl⟩ := FetchPhase.asking.inj heq
    obtain ⟨rfl, -⟩ := List.cons.inj hi
    exact (hreading _ (hmore _ rfl)).reading
  | reply htalk =>
    obtain ⟨heard, hexchange, -⟩ := FetchTalk.exchange htalk
    obtain ⟨hfresh, -⟩ := hexchange.fit (hfit rfl)
    refine ⟨hfresh, fun i rest collected talk heq => ?_⟩
    obtain ⟨-, -, rfl⟩ := FetchPhase.asking.inj heq
    exact hfresh i
  | fail htalk _ =>
    obtain ⟨heard, hexchange, -⟩ := FetchTalk.exchange htalk
    exact ⟨(hexchange.fit (hfit rfl)).1, fun _ _ _ _ heq => nomatch heq⟩
  | escape htalk _ =>
    obtain ⟨heard, hexchange, -⟩ := FetchTalk.exchange htalk
    exact ⟨(hexchange.fit (hfit rfl)).1, fun _ _ _ _ heq => nomatch heq⟩
  | _ => exact ⟨h.fresh, fun _ _ _ _ heq => nomatch heq⟩

theorem Inv.fetcher (h : Inv (protocol k n killThreshold depth) shares events s)
    (hdealt : ∀ i, Dealt (shares.getD i default)) {t : ℕ} {phase phase' : FetchPhase Talk}
    {news : News} {g : TrustGroup (ℕ → Sock)} (hphase : s.fetchers t = phase)
    (hstep : FetchStep (protocol k n killThreshold depth) t s.group phase news g phase') :
    Inv (protocol k n killThreshold depth) shares (events ++ [.fetcher t news])
      { s with group := g, fetchers := Function.update s.fetchers t phase' } := by
  obtain ⟨hfresh, hreading⟩ := h.fetch_fit hphase hstep
  obtain ⟨hlocked, hothers⟩ := hstep.lock fun hl => h.locked t (hphase ▸ hl)
  -- whoever else reads has the lock, so that `t` has left the connections alone
  have hrest : ∀ owner i talk, owner ≠ .fetcher t → s.exchange owner = some (i, talk) →
      Readable (shares.getD i default) (g.world i) talk.read := by
    intro owner i talk hne hex
    rcases hstep.world_cases with hworld | ⟨hl, -⟩
    · rw [hworld]
      exact h.reading owner i talk hex
    · exact absurd (Option.some.inj ((h.owns hex).symm.trans (h.locked t (hphase ▸ hl)))) hne
  refine ⟨hfresh, fun owner i talk hex => ?_, fun u hu => ?_, fun i talk hm => ?_, fun u => ?_⟩
  · cases owner with
    | monitor => exact hrest .monitor i talk nofun hex
    | fetcher u =>
      by_cases hut : u = t
      · subst hut
        rw [State.exchange] at hex
        simp only [Function.update_self] at hex
        split at hex
        · obtain ⟨rfl, rfl⟩ := Prod.mk.inj (Option.some.inj hex)
          exact hreading _ _ _ _ rfl
        · exact nomatch hex
      · refine hrest (.fetcher u) i talk (fun heq => hut (Owner.fetcher.inj heq)) ?_
        rw [State.exchange] at hex ⊢
        simpa only [Function.update_of_ne hut] using hex
  · by_cases hut : u = t
    · subst hut
      exact hlocked (by simpa using hu)
    · have hu' : (s.fetchers u).Locked := by simpa [Function.update_of_ne hut] using hu
      exact hothers _ (fun heq => hut (Owner.fetcher.inj heq)) (h.locked u hu')
  · exact hothers .monitor nofun (h.pinging i talk hm)
  · rw [notes_snoc]
    show Observed _ shares _ (Function.update s.fetchers t phase' u)
    by_cases hut : u = t
    · subst hut
      rw [Function.update_self, Event.note, if_pos rfl]
      have hobs := h.observed u
      rw [hphase] at hobs
      refine hobs.step hstep fun {i rest collected talk world x y} heq htalk => ?_
      exact FetchTalk.reply_genuine htalk
        (h.reading (.fetcher u) i talk (by rw [State.exchange, hphase, heq])) (hdealt i)
    · rw [Function.update_of_ne hut, Event.note, if_neg (Ne.symm hut)]
      exact h.observed u

/-- The monitor does something that has nothing to do with the connections. -/
theorem Inv.monitor_away {p : Protocol (ℕ → Sock) Talk} (h : Inv p shares events s) {tally : Tally}
    {monitor : Monitor} (haway : ∀ i talk, monitor ≠ .pinging i talk) :
    Inv p shares events
      { s with group := { s.group with tally := tally }, monitor := monitor } := by
  refine ⟨h.fresh, fun owner i talk hex => ?_, h.locked, fun i talk hm => absurd hm (haway i talk),
    h.observed⟩
  cases owner with
  | fetcher t => exact h.reading (.fetcher t) i talk hex
  | monitor =>
    rw [State.exchange] at hex
    split at hex
    · rename_i hm
      exact absurd hm (haway _ _)
    · exact nomatch hex

/-- The monitor takes the lock, or does something under it. -/
theorem Inv.monitor_reads {p : Protocol (ℕ → Sock) Talk} (h : Inv p shares events s)
    (hidle : ∀ t, ¬ (s.fetchers t).Locked) {g : TrustGroup (ℕ → Sock)} {monitor : Monitor}
    (hfresh : ∀ j, Readable (shares.getD j default) (g.world j) [])
    (hreads : ∀ i talk, monitor = .pinging i talk →
      g.lock = some .monitor ∧ Readable (shares.getD i default) (g.world i) talk.read) :
    Inv p shares events { s with group := g, monitor := monitor } := by
  refine ⟨hfresh, fun owner i talk hex => ?_, fun t hl => absurd hl (hidle t),
    fun i talk hm => (hreads i talk hm).1, h.observed⟩
  cases owner with
  | fetcher t =>
    refine absurd ?_ (hidle t)
    rw [State.exchange] at hex
    split at hex
    · rename_i hphase
      rw [hphase]
      trivial
    · exact nomatch hex
  | monitor =>
    rw [State.exchange] at hex
    split at hex
    · rename_i hm
      obtain ⟨rfl, rfl⟩ := Prod.mk.inj (Option.some.inj hex)
      exact (hreads _ _ hm).2
    · exact nomatch hex

theorem Inv.monitor {p : Protocol (ℕ → Sock) Talk} (h : Inv p shares events s)
    {g : TrustGroup (ℕ → Sock)} {monitor : Monitor}
    (hstep : MonitorStep n killThreshold depth s.group s.monitor g monitor) :
    Inv p shares events { s with group := g, monitor := monitor } := by
  generalize hm : s.monitor = m at hstep
  have hfit : ∀ {i talk}, m = .pinging i talk → Fit shares s.group.world i talk.read := by
    rintro i talk rfl
    exact h.fit .monitor (by rw [State.exchange, hm])
  have hidle : ∀ {i talk}, m = .pinging i talk → ∀ t, ¬ (s.fetchers t).Locked := by
    rintro i talk rfl t hl
    exact nomatch (h.pinging i talk hm).symm.trans (h.locked t hl)
  cases hstep with
  | @acquire i hfree =>
    refine h.monitor_reads (fun t hl => nomatch hfree.symm.trans (h.locked t hl)) h.fresh ?_
    rintro j talk heq
    obtain ⟨rfl, rfl⟩ := Monitor.pinging.inj heq
    exact ⟨rfl, h.fresh i⟩
  | more hexchange =>
    obtain ⟨hfresh, hreading⟩ := hexchange.fit (hfit rfl)
    refine h.monitor_reads (hidle rfl) hfresh ?_
    rintro j talk heq
    obtain ⟨rfl, rfl⟩ := Monitor.pinging.inj heq
    exact ⟨h.pinging _ _ hm, (hreading _ rfl).reading⟩
  | alive hexchange _ =>
    exact h.monitor_reads (hidle rfl) (hexchange.fit (hfit rfl)).1 nofun
  | dead hexchange _ =>
    exact h.monitor_reads (hidle rfl) (hexchange.fit (hfit rfl)).1 nofun
  | raise hexchange _ =>
    exact h.monitor_reads (hidle rfl) (hexchange.fit (hfit rfl)).1 nofun
  | skip => exact h.monitor_away nofun
  | ping => exact h.monitor_away nofun
  | sleep => exact h.monitor_away nofun
  | mark => exact h.monitor_away nofun
  | marked => exact h.monitor_away nofun

/-- A holder answers, or a connection goes: whatever a reader of this connection has
read, it is as fit as before. -/
theorem Inv.setSock {p : Protocol (ℕ → Sock) Talk} (h : Inv p shares events s) {i : ℕ} {sock : Sock}
    (hsock : ∀ buf, Readable (shares.getD i default) (s.group.world i) buf →
      Readable (shares.getD i default) sock buf) : Inv p shares events (s.setSock i sock) := by
  have hworld : ∀ j buf, Readable (shares.getD j default) (s.group.world j) buf →
      Readable (shares.getD j default) ((s.setSock i sock).group.world j) buf := by
    intro j buf hj
    show Readable _ (Function.update s.group.world i sock j) buf
    by_cases hji : j = i
    · subst hji
      rw [Function.update_self]
      exact hsock buf hj
    · rwa [Function.update_of_ne hji]
  exact ⟨fun j => hworld j [] (h.fresh j), fun owner j talk hex =>
    hworld j talk.read (h.reading owner j talk hex), h.locked, h.pinging, h.observed⟩

/-- A step that no fetching thread takes tells it nothing. -/
theorem Inv.away {p : Protocol (ℕ → Sock) Talk} (h : Inv p shares events s) {event : Event}
    (haway : ∀ t notes, event.note t notes = notes) : Inv p shares (events ++ [event]) s := by
  refine ⟨h.fresh, h.reading, h.locked, h.pinging, fun t => ?_⟩
  rw [notes_snoc, haway]
  exact h.observed t

theorem Inv.step {event : Event} (h : Inv (protocol k n killThreshold depth) shares events s)
    (hdealt : ∀ i, Dealt (shares.getD i default))
    (hstep : Step shares (protocol k n killThreshold depth) depth s event s') :
    Inv (protocol k n killThreshold depth) shares (events ++ [event]) s' := by
  cases hstep with
  | fetcher _ hphase hfetch => exact h.fetcher hdealt hphase hfetch
  | monitor _ hmonitor => exact (h.monitor hmonitor).away fun _ _ => rfl
  | answer hopen _ => exact (h.setSock fun buf hbuf => hbuf.answer hopen _ _).away fun _ _ => rfl
  | cut => exact (h.setSock fun buf hbuf => hbuf.cut _).away fun _ _ => rfl

end Invariant

theorem dealt_of_splitSecret {secret : Bytes} {k n : ℕ} {urandom : ℕ → ℕ → UInt8}
    {shares : List (ℤ × Bytes)} (hsplit : splitSecret secret k n urandom = .ok shares) (i : ℕ) :
    Dealt (shares.getD i default) := by
  rw [splitSecret] at hsplit
  split at hsplit
  · cases hsplit
  · obtain ⟨columns, -, hshares⟩ := bind_eq_ok.mp hsplit
    obtain rfl := Except.ok.inj hshares
    by_cases hi : i < n
    · simp only [List.getD_eq_getElem?_getD, List.getElem?_map, List.getElem?_range hi,
        Option.map_some, Option.getD_some, Dealt]
      omega
    · have hnone : (List.range n)[i]? = none := by
        rw [List.getElem?_eq_none_iff, List.length_range]
        omega
      simp only [List.getD_eq_getElem?_getD, List.getElem?_map, hnone, Option.map_none,
        Option.getD_none]
      exact le_rfl

theorem inv_of_run {secret : Bytes} {k n : ℕ} {urandom : ℕ → ℕ → UInt8}
    {shares : List (ℤ × Bytes)} (hsplit : splitSecret secret k n urandom = .ok shares)
    {killThreshold : ℤ} {depth : ℕ} {events : List Event} {s : State}
    (hrun : Run (Step shares (protocol k n killThreshold depth) depth) start events s) :
    Inv (protocol k n killThreshold depth) shares events s :=
  hrun.history (inv_start _ shares) fun h hstep => h.step (dealt_of_splitSecret hsplit) hstep

/-- **Fetching.**  In every run, with the bytes of the holders late, in any pieces and
cut off anywhere, and with exceptions at any moment, every call of `fetch` that has
returned has returned the secret that was split. -/
theorem returned_eq_secret {secret : Bytes} {k n : ℕ} {urandom : ℕ → ℕ → UInt8}
    {shares : List (ℤ × Bytes)} (hsplit : splitSecret secret k n urandom = .ok shares)
    {killThreshold : ℤ} {depth : ℕ} {events : List Event} {s : State}
    (hrun : Run (Step shares (protocol k n killThreshold depth) depth) start events s) (t : ℕ)
    (v : Bytes) (hreturned : s.fetchers t = .returned v) : v = secret := by
  have hobs := (inv_of_run hsplit hrun).observed t
  rw [hreturned] at hobs
  exact hobs.eq_secret hsplit

/-- A line that comes at once. -/
theorem exchange_of_line {share : ℤ × Bytes} (hdealt : Dealt share)
    (hdigits : (Json.decimal share.1.toNat).length ≤ Json.maxDigits) {depth i : ℕ} {op op' : Op}
    {w : ℕ → Sock} (hwire : (w i).wire = line (reply share op))
    (hlen : (line (reply share op)).length ≤ 4096) :
    Exchange depth op' w i (.receiving []) (Function.update w i { w i with wire := [] })
      (.done (.ok (reply share op))) := by
  have hlast : (line (reply share op)).getLast? = some 10 := by
    rw [line, encode, List.map_append]
    simp
  have hne : line (reply share op) ≠ [] := by
    intro h
    rw [h] at hlast
    exact nomatch hlast
  rw [← parseLine_line hdealt hdigits op depth]
  exact Exchange.line (hwire.trans (List.append_nil _).symm) hne hlen hlast

/-- The first of two calls times out, and the reply to it comes late; the other call, which has
found the holder unrecorded before, takes it for its own. -/
theorem returned_eq_secret_one :
    ∃ events s v, Run (Step [(1, List.replicate 32 5)] (protocol 1 1 2 100) 100) start events s ∧
      s.fetchers 0 = .raised .trustGroupCompromised ∧ (s.group.world 0).requests = [.getShare] ∧
      s.fetchers 1 = .returned v ∧ v = List.replicate 32 5 := by
  have hsplit : splitSecret (List.replicate 32 5) 1 1 (fun _ _ => 0)
      = .ok [(1, List.replicate 32 5)] := by decide +kernel
  have hfive : combineShares [(1, List.replicate 32 5)] = .ok (List.replicate 32 5) :=
    combineShares_single 1 _
  have hdigits : (Json.decimal 1).length ≤ Json.maxDigits := by simp [Json.decimal, Json.maxDigits]
  have hdealt : Dealt (1, List.replicate 32 5) := show (0 : ℤ) ≤ 1 by decide
  have hlen : (line (reply (1, List.replicate 32 5) .getShare)).length ≤ 4096 := by
    rw [line, encode, dumps_reply_share _ hdealt]
    simp [hex, Json.decimal, pyStr]
  have hrun := Run.refl (Step [(1, List.replicate 32 5)] (protocol 1 1 2 100) 100) start
    |>.snoc (.fetcher (t := 1) rfl rfl .call)
    |>.snoc (.fetcher (t := 1) rfl rfl (.scan (by decide)))
    |>.snoc (.fetcher (t := 1) rfl rfl (.enough (by decide)))
    |>.snoc (.fetcher (t := 0) rfl rfl .call)
    |>.snoc (.fetcher (t := 0) rfl rfl (.scan (by decide)))
    |>.snoc (.fetcher (t := 0) rfl rfl (.enough (by decide)))
    -- the request goes out, and no answer comes in time
    |>.snoc (.fetcher (t := 0) rfl rfl (.acquire rfl))
    |>.snoc (.fetcher (t := 0) rfl rfl (.more (.more .send)))
    |>.snoc (.fetcher (t := 0) rfl rfl (.fail (.raises .timeout) rfl))
    |>.snoc (.fetcher (t := 0) rfl rfl (.mark (by decide)))
    |>.snoc (.fetcher (t := 0) rfl rfl (.mark (show Mark.add ≠ .done by decide)))
    |>.snoc (.fetcher (t := 0) rfl rfl (.mark (show Mark.guard ≠ .done by decide)))
    |>.snoc (.fetcher (t := 0) rfl rfl (.mark (show Mark.compare ≠ .done by decide)))
    |>.snoc (.fetcher (t := 0) rfl rfl .marked)
    -- a second request, and the answer to the first
    |>.snoc (.fetcher (t := 1) rfl rfl (.acquire rfl))
    |>.snoc (.fetcher (t := 1) rfl rfl (.more (.more .send)))
    |>.snoc (.answer (i := 0) rfl rfl)
    |>.snoc (.fetcher (t := 1) rfl rfl (.reply (.reply
      (exchange_of_line hdealt hdigits rfl hlen) (readShare_getShare _))))
    |>.snoc (.fetcher (t := 1) rfl rfl .release)
    |>.snoc (.fetcher (t := 1) rfl rfl (.combine hfive))
  exact ⟨_, _, _, hrun, rfl, rfl, rfl, returned_eq_secret hsplit hrun 1 _ rfl⟩

end NetworkTrustGroup
