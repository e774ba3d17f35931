/-
The encrypted path out: `stream_to`, `stream_to_wrapped` and the reader
`decrypt_wrapped_file` of `secure_system.py`.

* `streamTo_streamToWrapped_eq_snapshot`: the three ways out agree, and the reader
  cuts the file where the writer ended its frames.
* `decryptWrappedFile_of_tampered`: whatever is done to the file, the reader can only
  put out whole pieces of the original, one for each genuine frame it finds; nothing
  in the format says how many frames there are or in which order
  (`decryptWrappedFile_truncated`).
-/
import Mathlib
import VStorage.TwoGenerations

/-! ### The reader -/

/-- `int.from_bytes(data, "big")`. -/
def fromBytesBig (data : Bytes) : ℕ := data.foldl (fun n b => 256 * n + b.toNat) 0

/-- What one pass of the reader's loop takes off the file. -/
structure Frame where
  lengthBytes : Bytes
  nonce : Bytes
  ct : Bytes
  deriving DecidableEq, Repr

/-- The three reads at the start of a pass, and what they leave.  A read at the end of
the file returns fewer bytes. -/
def readFrame (src : Bytes) : Frame × Bytes :=
  let lengthBytes := src.take 4
  let rest := src.drop 4
  let ctLen := fromBytesBig lengthBytes
  let nonce := rest.take nonceLen
  let rest := rest.drop nonceLen
  (⟨lengthBytes, nonce, rest.take ctLen⟩, rest.drop ctLen)

theorem length_readFrame_lt {src : Bytes} (h : src ≠ []) :
    (readFrame src).2.length < src.length := by
  have := List.length_pos_of_ne_nil h
  simp only [readFrame, List.length_drop]
  omega

/-- `decrypt_wrapped_file`: what is written, and how the loop ends. -/
def decryptWrappedFile (P : Primitives) (transitKey : Bytes) :
    Bytes → List Bytes × Except PyError Unit
  | [] => ([], .ok ())
  | b :: src =>
    match P.decrypt transitKey (readFrame (b :: src)).1.nonce (readFrame (b :: src)).1.ct with
    | .error e => ([], .error e)
    | .ok plaintext =>
      let (written, outcome) := decryptWrappedFile P transitKey (readFrame (b :: src)).2
      (plaintext :: written, outcome)
termination_by src => src.length
decreasing_by exact length_readFrame_lt (List.cons_ne_nil _ _)

/-- The frames the reader cuts a file into. -/
def readFrames : Bytes → List Frame
  | [] => []
  | b :: src => (readFrame (b :: src)).1 :: readFrames (readFrame (b :: src)).2
termination_by src => src.length
decreasing_by exact length_readFrame_lt (List.cons_ne_nil _ _)

/-- A reader that completes has opened every frame, and written what was in them. -/
theorem decryptWrappedFile_eq_ok {P : Primitives} {transitKey src : Bytes}
    {written : List Bytes} :
    decryptWrappedFile P transitKey src = (written, .ok ()) ↔
      List.Forall₂ (fun f p => P.decrypt transitKey f.nonce f.ct = .ok p)
        (readFrames src) written := by
  fun_induction readFrames src generalizing written with
  | case1 => simp [decryptWrappedFile, eq_comm]
  | case2 b src ih =>
    rw [decryptWrappedFile, List.forall₂_cons_left_iff]
    cases hopen : P.decrypt transitKey (readFrame (b :: src)).1.nonce
        (readFrame (b :: src)).1.ct with
    | error e => simp
    | ok plaintext =>
      constructor
      · intro h
        obtain ⟨rfl, hrest⟩ := Prod.mk.inj h
        exact ⟨_, _, rfl, ih.mp (Prod.ext rfl hrest), rfl⟩
      · rintro ⟨p, rest, hp, hrest, rfl⟩
        obtain rfl := Except.ok.inj hp
        rw [ih.mpr hrest]

/-! ### The writer -/

namespace ChunkedSecureBox

variable {P : Primitives}

/-- The plaintexts up to the last byte: the loops stop when nothing remains. -/
def upToEnd : List Bytes → List Bytes
  | [] => []
  | p :: plains => if (p :: plains).flatten = [] then [] else p :: upToEnd plains

theorem flatten_upToEnd (plains : List Bytes) : (upToEnd plains).flatten = plains.flatten := by
  induction plains with
  | nil => rfl
  | cons p plains ih =>
    rw [upToEnd]
    split
    · rename_i h
      exact h.symm
    · rw [List.flatten_cons, List.flatten_cons, ih]

/-- **What the loop can do.**  It hands every piece, wrapped, to `write`; or some piece
cannot be wrapped, and it raises. -/
theorem streamLoop_cases {pools : List ChunkPool} {keys : Bytes × Bytes}
    {entries : List (Chunk × Bool)} {plains : List Bytes}
    (h : List.Forall₂ (Opens P pools keys) entries plains)
    (wrap : ℕ → Bytes → Except PyError Bytes) (i : ℕ) :
    ∃ outs outcome, streamLoop P pools keys wrap (fun _ => .ok ()) entries i
        plains.flatten.length = (outs, outcome) ∧
      (outcome = .ok () ∧
          List.Forall₂ (fun p out => ∃ j, wrap j p = .ok out) (upToEnd plains) outs ∨
        (∃ e, outcome = .error e) ∧ ∃ j, ∃ p ∈ plains, ∃ e, wrap j p = .error e) := by
  induction h generalizing i with
  | nil => exact ⟨[], .ok (), rfl, Or.inl ⟨rfl, List.Forall₂.nil⟩⟩
  | @cons entry p entries plains hentry _ ih =>
    by_cases hz : (p :: plains).flatten = []
    · refine ⟨[], .ok (), ?_, Or.inl ⟨rfl, ?_⟩⟩
      · rw [streamLoop, if_pos (by rw [hz]; rfl)]
      · rw [upToEnd, if_pos hz]
        exact List.Forall₂.nil
    · have hne : (p :: plains).flatten.length ≠ 0 := mt List.length_eq_zero_iff.mp hz
      have hlen : (p :: plains).flatten.length = p.length + plains.flatten.length := by
        rw [List.flatten_cons, List.length_append]
      have hpiece : p.take (min p.length (p.length + plains.flatten.length)) = p :=
        List.take_of_length_le (by omega)
      rw [streamLoop, if_neg hne, hentry.1, hentry.2, hlen]
      simp only [hpiece]
      cases hout : wrap i p with
      | error e =>
        exact ⟨[], .error e, rfl, Or.inr ⟨⟨e, rfl⟩, i, p, List.mem_cons_self, e, hout⟩⟩
      | ok out =>
        obtain ⟨outs, outcome, hrun, hcases⟩ := ih (i + 1)
        rw [Nat.add_sub_cancel_left, hrun]
        refine ⟨out :: outs, outcome, rfl, ?_⟩
        rcases hcases with ⟨hok, houts⟩ | ⟨herror, j, q, hq, hwrap⟩
        · refine Or.inl ⟨hok, ?_⟩
          rw [upToEnd, if_neg hz]
          exact List.Forall₂.cons ⟨i, hout⟩ houts
        · exact Or.inr ⟨herror, j, q, List.mem_cons_of_mem _ hq, hwrap⟩

/-- A retrieval by streaming, from any box that holds its data. -/
theorem Holds.stream_cases {plains : List Bytes} {ck nk : Bytes} {box : ChunkedSecureBox}
    (h : Holds P plains ck nk box) (between : List (ℕ × ℕ))
    (wrap : ℕ → Bytes → Except PyError Bytes) :
    ∃ outs outcome, (ChunkedSecureBox.stream P between box wrap fun _ => .ok ()).2
        = (outs, outcome) ∧
      (outcome = .ok () ∧
          List.Forall₂ (fun p out => ∃ j, wrap j p = .ok out) (upToEnd plains) outs ∨
        (∃ e, outcome = .error e) ∧ ∃ j, ∃ p ∈ plains, ∃ e, wrap j p = .error e) := by
  have h₁ := (h.paused true).bounces between
  obtain ⟨outs, outcome, hrun, hcases⟩ := streamLoop_cases h₁.opens wrap 0
  refine ⟨outs, outcome, ?_, hcases⟩
  unfold ChunkedSecureBox.stream
  rw [(h.paused true).readKeys]
  dsimp only
  rw [h₁.dataLen, hrun]

end ChunkedSecureBox

/-! ### Frames -/

theorem toBytesBig_ok {n : ℕ} {bs : Bytes} (h : ChunkedSecureBox.toBytesBig n = .ok bs) :
    bs.length = 4 ∧ fromBytesBig bs = n := by
  unfold ChunkedSecureBox.toBytesBig at h
  split at h
  · obtain rfl := Except.ok.inj h
    refine ⟨rfl, ?_⟩
    simp only [fromBytesBig, List.foldl_cons, List.foldl_nil, UInt8.toNat_ofNat']
    omega
  · exact nomatch h

namespace Frame

/-- A frame as the writer hands it out. -/
def bytes (f : Frame) : Bytes := f.lengthBytes ++ f.nonce ++ f.ct

/-- The reader takes exactly this frame off the front of any file. -/
def SelfDelimiting (f : Frame) : Prop := ∀ rest, readFrame (f.bytes ++ rest) = (f, rest)

theorem selfDelimiting {f : Frame} (hlen : f.lengthBytes.length = 4)
    (hnonce : f.nonce.length = nonceLen) (hct : fromBytesBig f.lengthBytes = f.ct.length) :
    f.SelfDelimiting := by
  intro rest
  have h1 : (f.bytes ++ rest).take 4 = f.lengthBytes := by
    rw [bytes, List.append_assoc, List.append_assoc, ← hlen, List.take_left]
  have h2 : (f.bytes ++ rest).drop 4 = f.nonce ++ (f.ct ++ rest) := by
    rw [bytes, List.append_assoc, List.append_assoc, ← hlen, List.drop_left]
  have h3 : (f.nonce ++ (f.ct ++ rest)).drop nonceLen = f.ct ++ rest := by
    rw [← hnonce, List.drop_left]
  have h4 : (f.nonce ++ (f.ct ++ rest)).take nonceLen = f.nonce := by
    rw [← hnonce, List.take_left]
  simp only [readFrame, h1, h2, h3, h4, hct, List.take_left, List.drop_left]

theorem bytes_ne_nil {f : Frame} (h : f.SelfDelimiting) : f.bytes ≠ [] := by
  intro hnil
  have hrest := h [0]
  rw [hnil] at hrest
  simp [readFrame] at hrest

end Frame

/-- A file of self-delimiting frames is cut where they were written. -/
theorem readFrames_flatten (fs : List Frame) (h : ∀ f ∈ fs, f.SelfDelimiting) :
    readFrames (fs.map Frame.bytes).flatten = fs := by
  induction fs with
  | nil => simp [readFrames]
  | cons f fs ih =>
    have hf := h f List.mem_cons_self
    have hrest := hf (fs.map Frame.bytes).flatten
    rw [List.map_cons, List.flatten_cons]
    obtain ⟨b, src, hsrc⟩ := List.exists_cons_of_ne_nil
      (List.append_ne_nil_of_left_ne_nil (Frame.bytes_ne_nil hf) (fs.map Frame.bytes).flatten)
    rw [hsrc] at hrest ⊢
    rw [readFrames, hrest, ih fun g hg => h g (List.mem_cons_of_mem _ hg)]

/-- A frame around `piece`. -/
structure Frame.Carries (P : Primitives) (transitKey : Bytes) (piece : Bytes) (f : Frame) :
    Prop where
  selfDelimiting : f.SelfDelimiting
  opens : P.decrypt transitKey f.nonce f.ct = .ok piece

namespace ChunkedSecureBox

variable {P : Primitives}

/-- What `wrapPiece` hands to `write` is a frame around the piece. -/
theorem carries_of_wrapPiece {transitKey : Bytes} {nonce : Nonce} {piece out : Bytes}
    (h : wrapPiece P transitKey nonce piece = .ok out) :
    ∃ f : Frame, f.bytes = out ∧ f.Carries P transitKey piece := by
  obtain ⟨ct, henc, h⟩ := bind_eq_ok.mp h
  obtain ⟨lengthBytes, hlen, h⟩ := bind_eq_ok.mp h
  obtain rfl := Except.ok.inj h
  obtain ⟨h4, hct⟩ := toBytesBig_ok hlen
  exact ⟨⟨lengthBytes, nonce, ct⟩, rfl, Frame.selfDelimiting h4 nonce.2 hct, P.decrypt_encrypt henc⟩

theorem wrapPiece_ok {transitKey : Bytes} (hkey : ValidKey transitKey) (nonce : Nonce)
    {piece : Bytes} (hlen : piece.length + 16 < 2 ^ 32) :
    ∃ out, wrapPiece P transitKey nonce piece = .ok out := by
  obtain ⟨ct, henc⟩ := P.encrypt_ok nonce piece hkey
  obtain ⟨lengthBytes, hbytes⟩ : ∃ bs, toBytesBig ct.length = .ok bs :=
    ⟨_, if_pos (by rw [P.length_encrypt henc]; exact hlen)⟩
  exact ⟨lengthBytes ++ nonce ++ ct, by rw [wrapPiece, henc, ok_bind, hbytes]; rfl⟩

/-- A wrapped retrieval that returns has written one frame for each piece. -/
theorem Holds.streamToWrapped_ok {plains : List Bytes} {ck nk : Bytes} {box : ChunkedSecureBox}
    (h : Holds P plains ck nk box) {transitKey : Bytes} {between : List (ℕ × ℕ)}
    {nonces : ℕ → Nonce} {frames : List Bytes}
    (hok : (box.streamToWrapped P between transitKey nonces fun _ => .ok ()).2
      = (frames, .ok ())) :
    ∃ fs : List Frame, fs.map Frame.bytes = frames ∧
      List.Forall₂ (Frame.Carries P transitKey) (upToEnd plains) fs := by
  obtain ⟨outs, outcome, hrun, hcases⟩ := h.stream_cases between
    fun i piece => wrapPiece P transitKey (nonces i) piece
  obtain ⟨rfl, rfl⟩ := Prod.mk.inj (hrun.symm.trans hok)
  obtain ⟨-, houts⟩ | ⟨⟨e, he⟩, -⟩ := hcases
  · clear hrun hok
    generalize upToEnd plains = pieces at houts ⊢
    induction houts with
    | nil => exact ⟨[], rfl, List.Forall₂.nil⟩
    | cons hout _ ih =>
      obtain ⟨j, hj⟩ := hout
      obtain ⟨f, rfl, hf⟩ := carries_of_wrapPiece hj
      obtain ⟨fs, rfl, hfs⟩ := ih
      exact ⟨f :: fs, rfl, List.Forall₂.cons hf hfs⟩
  · exact nomatch he

/-- It returns when the key is one for AES-GCM and the pieces are not too long. -/
theorem Holds.streamToWrapped {plains : List Bytes} {ck nk : Bytes} {box : ChunkedSecureBox}
    (h : Holds P plains ck nk box) (hsize : ∀ p ∈ plains, p.length + 16 < 2 ^ 32)
    {transitKey : Bytes} (hkey : ValidKey transitKey) (between : List (ℕ × ℕ))
    (nonces : ℕ → Nonce) :
    ∃ frames, (box.streamToWrapped P between transitKey nonces fun _ => .ok ()).2
      = (frames, .ok ()) := by
  obtain ⟨outs, outcome, hrun, ⟨rfl, -⟩ | ⟨-, j, p, hp, e, he⟩⟩ := h.stream_cases between
    fun i piece => wrapPiece P transitKey (nonces i) piece
  · exact ⟨outs, hrun⟩
  · obtain ⟨out, hout⟩ := wrapPiece_ok (P := P) hkey (nonces j) (hsize p hp)
    exact nomatch he.symm.trans hout

theorem Holds.streamTo {plains : List Bytes} {ck nk : Bytes} {box : ChunkedSecureBox}
    (h : Holds P plains ck nk box) (between : List (ℕ × ℕ)) :
    (box.streamTo P between fun _ => .ok ()).2 = (upToEnd plains, .ok ()) := by
  obtain ⟨outs, outcome, hrun, ⟨rfl, houts⟩ | ⟨-, j, p, -, e, he⟩⟩ := h.stream_cases between
    fun _ piece => .ok piece
  · have heq : upToEnd plains = outs := by
      clear hrun
      generalize upToEnd plains = pieces at houts ⊢
      induction houts with
      | nil => rfl
      | cons hout _ ih =>
        obtain ⟨-, hout⟩ := hout
        rw [Except.ok.inj hout, ih]
    rw [heq]
    exact hrun
  · exact nomatch he

end ChunkedSecureBox

/-- The frames written around some pieces are read back as they were written. -/
theorem decryptWrappedFile_carries {P : Primitives} {transitKey : Bytes} {fs : List Frame}
    {pieces : List Bytes} (h : List.Forall₂ (Frame.Carries P transitKey) pieces fs) :
    readFrames (fs.map Frame.bytes).flatten = fs ∧
      decryptWrappedFile P transitKey (fs.map Frame.bytes).flatten = (pieces, .ok ()) := by
  have hself : ∀ f ∈ fs, f.SelfDelimiting := by
    induction h with
    | nil => exact fun f hf => nomatch hf
    | cons hc _ ih => exact List.forall_mem_cons.mpr ⟨hc.selfDelimiting, ih⟩
  have hfs := readFrames_flatten _ hself
  refine ⟨hfs, ?_⟩
  rw [decryptWrappedFile_eq_ok, hfs]
  exact h.flip.imp fun _ _ hc => hc.opens

namespace ChunkedSecureBox

variable {P : Primitives}

/-- **The three ways out agree.**  For every box that can be reached, `snapshot`
returns the data, the pieces of `stream_to` make it up, and the reader completes on the
file of `stream_to_wrapped`, cuts it where the writer ended its frames, and writes the
same pieces. -/
theorem streamTo_streamToWrapped_eq_snapshot {source : Source} {env : InitEnv} {data : Bytes}
    {chunkSize : ℕ} (hsize : chunkSize + 16 < 2 ^ 32) {trustGroup onNewGuard : Bool}
    {box₀ box : ChunkedSecureBox}
    (hbuilt : construct source P env data chunkSize trustGroup onNewGuard = .ok box₀)
    (hreach : Reached P box₀ box) {transitKey : Bytes} (hkey : ValidKey transitKey)
    (nonces : ℕ → Nonce) (between₁ between₂ between₃ : List (ℕ × ℕ)) :
    ∃ pieces frames, (box.snapshot P between₁).2 = .ok pieces.flatten ∧ pieces.flatten = data ∧
      (box.streamTo P between₂ fun _ => .ok ()).2 = (pieces, .ok ()) ∧
      (box.streamToWrapped P between₃ transitKey nonces fun _ => .ok ()).2 = (frames, .ok ()) ∧
      (readFrames frames.flatten).map Frame.bytes = frames ∧
      decryptWrappedFile P transitKey frames.flatten = (pieces, .ok ()) := by
  obtain ⟨plains, ck₀, nk₀, hdata, hle, hold₀, hne⟩ := construct_ok hbuilt
  obtain ⟨ck, nk, hold⟩ := hreach.holds ⟨ck₀, nk₀, hold₀, hne⟩
  obtain ⟨frames, hrun⟩ := hold.streamToWrapped
    (fun p hp => lt_of_le_of_lt (Nat.add_le_add_right (hle p hp) 16) hsize) hkey between₃ nonces
  obtain ⟨fs, rfl, hfs⟩ := hold.streamToWrapped_ok hrun
  obtain ⟨hcut, hread⟩ := decryptWrappedFile_carries hfs
  refine ⟨upToEnd plains, fs.map Frame.bytes, ?_, ?_, hold.streamTo between₂, hrun, ?_, hread⟩
  · rw [flatten_upToEnd, hold.snapshot]
  · rw [flatten_upToEnd, hdata]
  · rw [hcut]

/-- A rotation in which the fetch raises. -/
def HopEnv.stopped : HopEnv where
  between := []
  nonce := InitEnv.sample.nonce 5
  fetch := .error .trustGroupCompromised
  mmap := .ok InitEnv.sample.nextPages
  callback := .ok ()

/-- A box whose only hop so far has stopped in the middle of its rotation. -/
theorem streamTo_streamToWrapped_eq_snapshot_stopped :
    ∃ box₀, construct .file Primitives.sample InitEnv.sample [1, 2] 2 true false = .ok box₀ ∧
      ∃ pieces frames,
        ((box₀.hop Primitives.sample HopEnv.stopped).box.snapshot Primitives.sample []).2
          = .ok pieces.flatten ∧ pieces.flatten = [1, 2] ∧
        ((box₀.hop Primitives.sample HopEnv.stopped).box.streamTo Primitives.sample []
          fun _ => .ok ()).2 = (pieces, .ok ()) ∧
        ((box₀.hop Primitives.sample HopEnv.stopped).box.streamToWrapped Primitives.sample []
          (List.replicate 32 9) InitEnv.sample.nonce fun _ => .ok ()).2 = (frames, .ok ()) ∧
        (readFrames frames.flatten).map Frame.bytes = frames ∧
        decryptWrappedFile Primitives.sample (List.replicate 32 9) frames.flatten
          = (pieces, .ok ()) := by
  obtain ⟨box₀, -, -, -, hbuilt, -⟩ := construct_spec (P := Primitives.sample) .file
    [1, 2] (show 1 ≤ 2 by decide) false
    (show true = true → ∃ external, InitEnv.sample.fetch = .ok external from
      fun _ => ⟨[1, 2, 3], rfl⟩)
  have hreached : Reached Primitives.sample box₀
      ((box₀.hop Primitives.sample HopEnv.stopped).box.bounces []) := .stopped Run.nil rfl
  exact ⟨box₀, hbuilt, streamTo_streamToWrapped_eq_snapshot (by decide) hbuilt hreached (by decide)
    InitEnv.sample.nonce [] [] []⟩

end ChunkedSecureBox

/-! ### Tampering -/

/-- The nonce and the ciphertext of `f` are those of one of the frames in `genuine`. -/
def Frame.Genuine (genuine : List Frame) (f : Frame) : Prop :=
  ∃ g ∈ genuine, g.nonce = f.nonce ∧ g.ct = f.ct

/-- `p` is the piece that was sealed in a genuine frame with the contents of `f`. -/
def Frame.SealedIn (genuine : List Frame) (pieces : List Bytes) (f : Frame) (p : Bytes) : Prop :=
  ∃ (i : ℕ) (g : Frame), genuine[i]? = some g ∧ g.nonce = f.nonce ∧ g.ct = f.ct ∧
    pieces[i]? = some p

/-- Nothing in the file opens but what was written: what ideal authenticity says about it. -/
def NoForgery (P : Primitives) (transitKey : Bytes) (genuine : List Frame) (src : Bytes) : Prop :=
  ∀ f ∈ readFrames src, (∃ p, P.decrypt transitKey f.nonce f.ct = .ok p) → f.Genuine genuine

theorem decryptWrappedFile_completes {P : Primitives} {transitKey src : Bytes} :
    (decryptWrappedFile P transitKey src).2 = .ok () ↔
      ∀ f ∈ readFrames src, ∃ p, P.decrypt transitKey f.nonce f.ct = .ok p := by
  fun_induction readFrames src with
  | case1 => simp [decryptWrappedFile]
  | case2 b src ih =>
    rw [decryptWrappedFile, List.forall_mem_cons]
    cases hopen : P.decrypt transitKey (readFrame (b :: src)).1.nonce
        (readFrame (b :: src)).1.ct with
    | error e => simp
    | ok plaintext => simpa using ih

/-- **Tampering.**  The reader completes exactly on the files all of whose frames are
genuine; then each frame it finds puts out the piece that was sealed in it, and if the
frames are the ones written, in order, the pieces are the original. -/
theorem decryptWrappedFile_of_tampered {P : Primitives} {source : ChunkedSecureBox.Source}
    {env : ChunkedSecureBox.InitEnv} {data : Bytes} {chunkSize : ℕ}
    {trustGroup onNewGuard : Bool} {box₀ box : ChunkedSecureBox}
    (hbuilt : ChunkedSecureBox.construct source P env data chunkSize trustGroup onNewGuard
      = .ok box₀)
    (hreach : ChunkedSecureBox.Reached P box₀ box) {transitKey : Bytes} {nonces : ℕ → Nonce}
    {between : List (ℕ × ℕ)} {frames : List Bytes}
    (hwritten : (box.streamToWrapped P between transitKey nonces fun _ => .ok ()).2
      = (frames, .ok ()))
    {tampered : Bytes}
    (hideal : NoForgery P transitKey (readFrames frames.flatten) tampered) :
    ((decryptWrappedFile P transitKey tampered).2 = .ok () ↔
      ∀ f ∈ readFrames tampered, f.Genuine (readFrames frames.flatten)) ∧
    ∃ pieces, pieces.flatten = data ∧ pieces.length = frames.length ∧
      (∀ written, decryptWrappedFile P transitKey tampered = (written, .ok ()) →
        List.Forall₂ (Frame.SealedIn (readFrames frames.flatten) pieces)
          (readFrames tampered) written) ∧
      ((readFrames tampered).map (fun f => (f.nonce, f.ct))
          = (readFrames frames.flatten).map (fun f => (f.nonce, f.ct)) →
        decryptWrappedFile P transitKey tampered = (pieces, .ok ())) := by
  obtain ⟨plains, ck₀, nk₀, hdata, -, hold₀, hne⟩ := ChunkedSecureBox.construct_ok hbuilt
  obtain ⟨ck, nk, hold⟩ := hreach.holds ⟨ck₀, nk₀, hold₀, hne⟩
  obtain ⟨fs, rfl, hfs⟩ := hold.streamToWrapped_ok hwritten
  obtain ⟨hcut, hread⟩ := decryptWrappedFile_carries hfs
  rw [hcut] at hideal ⊢
  -- the writer sealed one piece in each frame
  obtain ⟨hlen, hopens⟩ := List.forall₂_iff_get.mp hfs
  have hsealed : ∀ (i : ℕ) (g : Frame), fs[i]? = some g →
      ∃ p, (ChunkedSecureBox.upToEnd plains)[i]? = some p ∧
        P.decrypt transitKey g.nonce g.ct = .ok p := by
    intro i g hg
    obtain ⟨hi, rfl⟩ := List.getElem?_eq_some_iff.mp hg
    have hi' : i < (ChunkedSecureBox.upToEnd plains).length := by omega
    exact ⟨_, List.getElem?_eq_getElem hi', (hopens i hi' hi).opens⟩
  refine ⟨⟨fun hok f hf => ?_, fun hgenuine => ?_⟩, ChunkedSecureBox.upToEnd plains, ?_, ?_,
    fun written hok => ?_, fun hsame => ?_⟩
  · exact hideal f hf (decryptWrappedFile_completes.mp hok f hf)
  · refine decryptWrappedFile_completes.mpr fun f hf => ?_
    obtain ⟨g, hg, hnonce, hct⟩ := hgenuine f hf
    obtain ⟨i, hi⟩ := List.getElem?_of_mem hg
    obtain ⟨p, -, hp⟩ := hsealed i g hi
    exact ⟨p, by rw [← hnonce, ← hct, hp]⟩
  · rw [ChunkedSecureBox.flatten_upToEnd, hdata]
  · rw [hlen, List.length_map]
  · have hall := decryptWrappedFile_eq_ok.mp hok
    obtain ⟨hlen', hget⟩ := List.forall₂_iff_get.mp hall
    refine List.forall₂_iff_get.mpr ⟨hlen', fun k hk hk' => ?_⟩
    have hopen := hget k hk hk'
    obtain ⟨g, hg, hnonce, hct⟩ := hideal _ (List.get_mem _ _) ⟨_, hopen⟩
    obtain ⟨i, hi⟩ := List.getElem?_of_mem hg
    obtain ⟨p, hp, hdec⟩ := hsealed i g hi
    rw [hnonce, hct, hopen] at hdec
    obtain rfl := Except.ok.inj hdec
    exact ⟨i, g, hi, hnonce, hct, hp⟩
  · have hall := decryptWrappedFile_eq_ok.mp hread
    rw [hcut] at hall
    rw [decryptWrappedFile_eq_ok]
    have hmap (gs : List Frame) := List.forall₂_map_left_iff
      (R := fun (c : Bytes × Bytes) p => P.decrypt transitKey c.1 c.2 = .ok p)
      (f := fun f : Frame => (f.nonce, f.ct)) (l := gs) (u := ChunkedSecureBox.upToEnd plains)
    exact (hmap _).mp (hsame ▸ (hmap _).mpr hall)

/-- The frames of a box of two chunks. -/
def sampleFirst : Frame :=
  ⟨[0, 0, 0, 18], List.replicate 12 0, [1, 2] ++ Primitives.sampleTag (List.replicate 32 9)
    (ChunkedSecureBox.InitEnv.sample.nonce 0).1⟩

def sampleLast : Frame :=
  ⟨[0, 0, 0, 17], List.replicate 12 1, [3] ++ Primitives.sampleTag (List.replicate 32 9)
    (ChunkedSecureBox.InitEnv.sample.nonce 1).1⟩

theorem readFrames_sample (fs : List Frame) (h : ∀ f ∈ fs, f = sampleFirst ∨ f = sampleLast) :
    readFrames (fs.map Frame.bytes).flatten = fs := by
  refine readFrames_flatten fs fun f hf => ?_
  rcases h f hf with rfl | rfl
  · exact Frame.selfDelimiting rfl rfl (by decide)
  · exact Frame.selfDelimiting rfl rfl (by decide)

theorem streamToWrapped_sample :
    ∃ box, ChunkedSecureBox.construct .bytes Primitives.sample ChunkedSecureBox.InitEnv.sample
        [1, 2, 3] 2 false false = .ok box ∧
      (box.snapshot Primitives.sample []).2 = .ok [1, 2, 3] ∧
      (box.streamToWrapped Primitives.sample [] (List.replicate 32 9)
        ChunkedSecureBox.InitEnv.sample.nonce fun _ => .ok ()).2
        = ([sampleFirst.bytes, sampleLast.bytes], .ok ()) := by
  refine ⟨_, rfl, ?_, ?_⟩
  · decide +kernel
  · decide +kernel

/-- A file made of these frames. -/
theorem noForgery_sample (fs : List Frame) (h : ∀ f ∈ fs, f = sampleFirst ∨ f = sampleLast) :
    NoForgery Primitives.sample (List.replicate 32 9)
      (readFrames [sampleFirst.bytes, sampleLast.bytes].flatten)
      (fs.map Frame.bytes).flatten := by
  have hboth : readFrames [sampleFirst.bytes, sampleLast.bytes].flatten
      = [sampleFirst, sampleLast] :=
    readFrames_sample [sampleFirst, sampleLast] (by simp)
  intro f hf _
  rw [readFrames_sample fs h] at hf
  refine ⟨f, ?_, rfl, rfl⟩
  rw [hboth]
  simpa using h f hf

/-- The two frames the other way round: the reader puts the last piece first. -/
theorem decryptWrappedFile_of_tampered_reordered :
    ∃ box, ChunkedSecureBox.construct .bytes Primitives.sample ChunkedSecureBox.InitEnv.sample
        [1, 2, 3] 2 false false = .ok box ∧
      decryptWrappedFile Primitives.sample (List.replicate 32 9)
        (sampleLast.bytes ++ sampleFirst.bytes) = ([[3], [1, 2]], .ok ()) ∧
      ((decryptWrappedFile Primitives.sample (List.replicate 32 9)
          (sampleLast.bytes ++ sampleFirst.bytes)).2 = .ok () ↔
        ∀ f ∈ readFrames (sampleLast.bytes ++ sampleFirst.bytes),
          f.Genuine (readFrames [sampleFirst.bytes, sampleLast.bytes].flatten)) ∧
      ∃ pieces, pieces.flatten = [1, 2, 3] ∧ pieces.length = 2 ∧
        (∀ written, decryptWrappedFile Primitives.sample (List.replicate 32 9)
            (sampleLast.bytes ++ sampleFirst.bytes) = (written, .ok ()) →
          List.Forall₂
            (Frame.SealedIn (readFrames [sampleFirst.bytes, sampleLast.bytes].flatten) pieces)
            (readFrames (sampleLast.bytes ++ sampleFirst.bytes)) written) ∧
        ((readFrames (sampleLast.bytes ++ sampleFirst.bytes)).map (fun f => (f.nonce, f.ct))
            = (readFrames [sampleFirst.bytes, sampleLast.bytes].flatten).map
              (fun f => (f.nonce, f.ct)) →
          decryptWrappedFile Primitives.sample (List.replicate 32 9)
            (sampleLast.bytes ++ sampleFirst.bytes) = (pieces, .ok ())) := by
  obtain ⟨box, hbuilt, -, hwritten⟩ := streamToWrapped_sample
  have hswapped : ∀ f ∈ [sampleLast, sampleFirst], f = sampleFirst ∨ f = sampleLast := by simp
  have hflat : ([sampleLast, sampleFirst].map Frame.bytes).flatten
      = sampleLast.bytes ++ sampleFirst.bytes := by simp
  have hideal := hflat ▸ noForgery_sample _ hswapped
  refine ⟨box, hbuilt, ?_, decryptWrappedFile_of_tampered hbuilt
    (ChunkedSecureBox.Reached.run Run.nil) hwritten hideal⟩
  rw [decryptWrappedFile_eq_ok, ← hflat, readFrames_sample _ hswapped]
  exact .cons (by decide) (.cons (by decide) .nil)

/-- The frames of a two-chunk box, and the first of them alone: the reader takes the
shorter file for the whole. -/
theorem decryptWrappedFile_truncated :
    ∃ box first last,
      ChunkedSecureBox.construct .bytes Primitives.sample ChunkedSecureBox.InitEnv.sample
        [1, 2, 3] 2 false false = .ok box ∧
      (box.snapshot Primitives.sample []).2 = .ok [1, 2, 3] ∧
      (box.streamToWrapped Primitives.sample [] (List.replicate 32 9)
        ChunkedSecureBox.InitEnv.sample.nonce fun _ => .ok ()).2 = ([first, last], .ok ()) ∧
      NoForgery Primitives.sample (List.replicate 32 9) (readFrames (first ++ last)) first ∧
      decryptWrappedFile Primitives.sample (List.replicate 32 9) first = ([[1, 2]], .ok ()) := by
  obtain ⟨box, hbuilt, hsnapshot, hwritten⟩ := streamToWrapped_sample
  have hfirst : ([sampleFirst].map Frame.bytes).flatten = sampleFirst.bytes := by simp
  have hboth : [sampleFirst.bytes, sampleLast.bytes].flatten
      = sampleFirst.bytes ++ sampleLast.bytes := by simp
  have hideal := noForgery_sample [sampleFirst] (by simp)
  rw [hfirst, hboth] at hideal
  refine ⟨box, sampleFirst.bytes, sampleLast.bytes, hbuilt, hsnapshot, hwritten, hideal, ?_⟩
  rw [decryptWrappedFile_eq_ok, ← hfirst, readFrames_sample [sampleFirst] (by simp)]
  exact .cons (by decide) .nil
