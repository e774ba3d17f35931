/-
`_handle_connection`: what a peer can get out of a holder.

The peer sends any lines; here every write of the holder succeeds.  The token of the holder
may be any text in ASCII.

* `handleConnection_answers`: the holder writes one line for each line that asks, up to the
  first that does not.
* `handleConnection_unauthenticated`: a peer that never presents the token gets nothing.
* `handleConnection_transcript`: both, the second for two holders that differ in their shares.
* `Holder.handleConnection_server`: the holders of a group are such holders.
-/
import Mathlib
import VStorage.HolderServer

namespace HolderServer

namespace Server

variable (s : Server)

/-! ### The loop -/

/-- `resp`. -/
def response : NetworkTrustGroup.Op → Json
  | .getShare => .obj [(pyStr "x", .int s.x), (pyStr "share_hex", .str s.shareHex)]
  | .ping => .obj [(pyStr "pong", .bool true)]

/-- The lines that `_handle_connection` writes, and what it raises.  After the last of its
lines a peer either ends the stream or lets the read fail with an `OSError`: the loop is left
without an exception. -/
def handleConnection : List Bytes → List Bytes × Except PyError Unit
  | [] => ([], .ok ())
  | line :: lines =>
    if line = [] then ([], .ok ())
    else match s.request line with
      | .error e => ([], if e = .osError ∨ e = .valueError then .ok () else .error e)
      | .ok none => ([], .ok ())
      | .ok (some op) =>
        let (written, result) := handleConnection lines
        (NetworkTrustGroup.line (s.response op) :: written, result)

/-- The line is an object with the token in it. -/
def Presents (line : Bytes) : Prop :=
  ∃ members, loads (s.depth + 1) line = .ok (.obj members) ∧
    s.given (Json.lookup (pyStr "token") members) = s.token

/-- The same call with another share. -/
def withShare (x : ℤ) (shareHex : PyStr) : Server :=
  { s with x, shareHex }

variable {s}

theorem Asks.presents {line : Bytes} {op : NetworkTrustGroup.Op} (h : s.Asks line op) :
    s.Presents line := by
  obtain ⟨members, hload, htoken, -⟩ := h
  exact ⟨members, hload, htoken⟩

theorem Asks.ne_nil {line : Bytes} {op : NetworkTrustGroup.Op} (h : s.Asks line op) :
    line ≠ [] := by
  rintro rfl
  obtain ⟨members, hload, -⟩ := h
  cases hload

/-- A line that asks is answered, and the loop goes on. -/
theorem handleConnection_asks {line : Bytes} {op : NetworkTrustGroup.Op} (h : s.Asks line op)
    (lines : List Bytes) :
    (s.handleConnection (line :: lines)).1
      = NetworkTrustGroup.line (s.response op) :: (s.handleConnection lines).1 := by
  rw [handleConnection, if_neg h.ne_nil, s.request_eq_some.mpr h]

/-- Any other line ends it. -/
theorem handleConnection_stops {line : Bytes} (h : ∀ op, ¬ s.Asks line op)
    (lines : List Bytes) : (s.handleConnection (line :: lines)).1 = [] := by
  rw [handleConnection]
  split
  · rfl
  cases hreq : s.request line with
  | error e => rfl
  | ok found =>
    cases found with
    | none => rfl
    | some op => exact absurd (s.request_eq_some.mp hreq) (h op)

/-! ### What is written -/

variable (s)

/-- The lines fall into those that are answered and a rest that begins with none such; what
is written answers the former, in order. -/
theorem handleConnection_answers (lines : List Bytes) :
    ∃ answered rest ops, lines = answered ++ rest ∧ List.Forall₂ s.Asks answered ops ∧
      (∀ line ∈ rest.head?, ∀ op, ¬ s.Asks line op) ∧
      (s.handleConnection lines).1
        = ops.map fun op => NetworkTrustGroup.line (s.response op) := by
  induction lines with
  | nil => exact ⟨[], [], [], rfl, .nil, nofun, rfl⟩
  | cons line lines ih =>
    by_cases hasks : ∃ op, s.Asks line op
    · obtain ⟨op, hasks⟩ := hasks
      obtain ⟨answered, rest, ops, hlines, hall, hrest, hwritten⟩ := ih
      refine ⟨line :: answered, rest, op :: ops, ?_, .cons hasks hall, hrest, ?_⟩
      · rw [hlines, List.cons_append]
      · rw [handleConnection_asks hasks, hwritten, List.map_cons]
    · have hstops : ∀ op, ¬ s.Asks line op := fun op h => hasks ⟨op, h⟩
      refine ⟨[], line :: lines, [], rfl, .nil, ?_, handleConnection_stops hstops lines⟩
      intro first hfirst
      obtain rfl := Option.some.inj hfirst
      exact hstops

/-- Without the token nothing is written. -/
theorem handleConnection_unauthenticated {lines : List Bytes}
    (h : ∀ line ∈ lines, ¬ s.Presents line) : (s.handleConnection lines).1 = [] := by
  cases lines with
  | nil => rfl
  | cons line lines =>
    refine handleConnection_stops (fun op hasks => ?_) lines
    exact h line List.mem_cons_self hasks.presents

/-- **Authenticated serving.**  The lines written answer, one for one and in order, the longest
prefix of requests with the token for an operation that there is; the share is in the answers
to `get_share` only.  A peer that never presents the token gets the same whatever the share. -/
theorem handleConnection_transcript (lines : List Bytes) :
    (∃ answered rest ops, lines = answered ++ rest ∧ List.Forall₂ s.Asks answered ops ∧
      (∀ line ∈ rest.head?, ∀ op, ¬ s.Asks line op) ∧
      (s.handleConnection lines).1 = ops.map fun
        | .getShare => NetworkTrustGroup.line
            (.obj [(pyStr "x", .int s.x), (pyStr "share_hex", .str s.shareHex)])
        | .ping => NetworkTrustGroup.line (.obj [(pyStr "pong", .bool true)])) ∧
      ((∀ line ∈ lines, ¬ s.Presents line) → ∀ x shareHex,
        ((s.withShare x shareHex).handleConnection lines).1 = (s.handleConnection lines).1) := by
  constructor
  · obtain ⟨answered, rest, ops, hlines, hall, hrest, hwritten⟩ := s.handleConnection_answers lines
    refine ⟨answered, rest, ops, hlines, hall, hrest, hwritten.trans ?_⟩
    refine List.map_congr_left fun op _ => ?_
    cases op with
    | getShare => rfl
    | ping => rfl
  · intro hnever x shareHex
    rw [s.handleConnection_unauthenticated hnever]
    exact (s.withShare x shareHex).handleConnection_unauthenticated hnever

end Server

/-! ### The holders of a group -/

theorem nil_notMem_cutLines (bs : Bytes) : [] ∉ cutLines bs := by
  induction bs with
  | nil => exact List.not_mem_nil
  | cons b bs ih =>
    rw [cutLines]
    split
    · simpa using ih
    split
    · simp
    · rename_i line lines heq
      rw [heq, List.mem_cons, not_or] at ih
      simpa using ih.2

theorem nil_notMem_lines (peer : Peer) : [] ∉ peer.lines := by
  rw [Peer.lines]
  split
  · intro hmem
    exact nil_notMem_cutLines peer.sends (List.mem_of_mem_filter hmem)
  · exact nil_notMem_cutLines peer.sends

namespace Holder

variable (h : Holder)

theorem handleLines_sent {lines : List Bytes} (hlines : [] ∉ lines) :
    h.handleLines (fun _ => .sent) lines = h.server.handleConnection lines := by
  induction lines with
  | nil => rfl
  | cons line lines ih =>
    rw [List.mem_cons, not_or] at hlines
    rw [handleLines, Server.handleConnection, if_neg (Ne.symm hlines.1), ih hlines.2]
    have hsame : h.request line = h.server.request line := rfl
    rw [hsame]
    cases hreq : h.server.request line with
    | error e => rfl
    | ok found =>
      cases found with
      | none => rfl
      | some op => cases op <;> rfl

/-- `main` makes this call for whoever connects. -/
theorem handleConnection_server {peer : Peer} (hsent : peer.flush = fun _ => .sent) :
    h.handleConnection peer = h.server.handleConnection peer.lines := by
  rw [handleConnection, hsent]
  exact h.handleLines_sent (nil_notMem_lines peer)

end Holder

end HolderServer
