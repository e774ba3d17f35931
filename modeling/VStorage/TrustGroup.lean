/-
What the two trust groups share: `fetch` and the tally of compromised holders.

`fetch` is first a function of what it observes: which indices it found recorded as
compromised, and how each exchange with a holder went.  It returns the secret exactly
when the holders it picks all reply with their shares (`fetch_eq_returned_iff`).
Then it is a thread: `FetchStep` takes it apart into the steps that other threads,
the monitor and the holders come in between.  Whatever comes in between, the call
ends as the function does on what it has observed (`Observed.step`), and when the
holders that it picked have all answered, its end is inevitable (`Observed.ends`).
-/
import Mathlib
import VStorage.Runs
import VStorage.ShamirIndices

/-! ### The code -/

/-- How an exchange with a holder ends: with a share, with an exception, or never. -/
inductive Answer
  | reply (x : ℤ) (y : Bytes)
  | raises (e : PyError)
  | silence
  deriving DecidableEq, Repr

/-- The list `collected`, or the holder that failed. -/
inductive Collected
  | shares (collected : List (ℤ × Bytes))
  | failed (i : ℕ) (e : PyError)
  | blocked
  deriving DecidableEq, Repr

/-- How a call of `fetch` ends. -/
inductive Outcome
  | returned (secret : Bytes)
  | raised (e : PyError)
  | blocked
  deriving DecidableEq, Repr

/-- `[i for i in range(self.n) if i not in self._compromised_indices]`, where
`compromised i` is what the `i`-th test finds. -/
def aliveIndices (n : ℕ) (compromised : ℕ → Bool) : List ℕ :=
  (List.range n).filter fun i => !compromised i

/-- The loop of `fetch` over the indices it has picked. -/
def collect (ask : ℕ → Answer) : List ℕ → Collected
  | [] => .shares []
  | i :: rest =>
    match ask i with
    | .reply x y =>
      match collect ask rest with
      | .shares collected => .shares ((x, y) :: collected)
      | .failed j e => .failed j e
      | .blocked => .blocked
    | .raises e => .failed i e
    | .silence => .blocked

/-- `return combine_shares(collected)`. -/
def combined (collected : List (ℤ × Bytes)) : Outcome :=
  match combineShares collected with
  | .ok secret => .returned secret
  | .error e => .raised e

/-- `fetch`; `caught` says which exceptions its `except` clause names. -/
def fetch (caught : PyError → Bool) (k n : ℕ) (compromised : ℕ → Bool) (ask : ℕ → Answer) :
    Outcome :=
  let alive := aliveIndices n compromised
  if alive.length < k then .raised .trustGroupCompromised
  else
    match collect ask (alive.take k) with
    | .shares collected => combined collected
    | .failed _ e => .raised (if caught e then .trustGroupCompromised else e)
    | .blocked => .blocked

/-! ### What a fetch gives -/

theorem nodup_aliveIndices (n : ℕ) (compromised : ℕ → Bool) :
    (aliveIndices n compromised).Nodup := List.nodup_range.filter _

theorem lt_of_mem_aliveIndices {n i : ℕ} {compromised : ℕ → Bool}
    (h : i ∈ aliveIndices n compromised) : i < n :=
  List.mem_range.mp (List.mem_filter.mp h).1

/-- The shares come from the holders that were asked, in order. -/
theorem collect_eq_shares {ask : ℕ → Answer} {picks : List ℕ}
    {collected : List (ℤ × Bytes)} :
    collect ask picks = .shares collected ↔
      List.Forall₂ (fun i s => ask i = .reply s.1 s.2) picks collected := by
  induction picks generalizing collected with
  | nil => simp [collect, eq_comm]
  | cons i rest ih =>
    rw [collect, List.forall₂_cons_left_iff]
    cases hask : ask i with
    | raises e => simp
    | silence => simp
    | reply x y =>
      cases hrest : collect ask rest with
      | failed j e => simp [← ih, hrest]
      | blocked => simp [← ih, hrest]
      | shares l =>
        constructor
        · intro h
          obtain rfl := Collected.shares.inj h
          exact ⟨(x, y), l, rfl, ih.mp hrest, rfl⟩
        · rintro ⟨s, l', hs, hl', rfl⟩
          obtain rfl := Collected.shares.inj (hrest.symm.trans (ih.mpr hl'))
          obtain ⟨rfl, rfl⟩ := Answer.reply.inj hs
          rfl

theorem collect_of_replies {ask : ℕ → Answer} {picks : List ℕ}
    (h : ∀ i ∈ picks, ∃ x y, ask i = .reply x y) :
    ∃ collected, collect ask picks = .shares collected := by
  induction picks with
  | nil => exact ⟨[], rfl⟩
  | cons i rest ih =>
    obtain ⟨x, y, hask⟩ := h i List.mem_cons_self
    obtain ⟨collected, hrest⟩ := ih fun j hj => h j (List.mem_cons_of_mem _ hj)
    exact ⟨(x, y) :: collected, by rw [collect, hask, hrest]⟩

/-- Every share that was handed over is the one dealt to its holder. -/
def Genuine (shares : List (ℤ × Bytes)) (ask : ℕ → Answer) : Prop :=
  ∀ i x y, ask i = .reply x y → (x, y) = shares.getD i default

/-- What is collected is what was dealt to the holders asked. -/
theorem collect_genuine {shares : List (ℤ × Bytes)} {ask : ℕ → Answer}
    (hgenuine : Genuine shares ask) {picks : List ℕ} {collected : List (ℤ × Bytes)}
    (h : collect ask picks = .shares collected) :
    collected = picks.map fun i => shares.getD i default := by
  induction collect_eq_shares.mp h with
  | nil => rfl
  | @cons i s picks collected hs hrest ih =>
    rw [List.map_cons, ← ih (collect_eq_shares.mpr hrest)]
    exact congrArg (· :: collected) (hgenuine i s.1 s.2 hs)

theorem nodup_picks (k n : ℕ) (compromised : ℕ → Bool) :
    ((aliveIndices n compromised).take k).Nodup :=
  (nodup_aliveIndices n compromised).sublist (List.take_sublist k _)

theorem lt_of_mem_picks {k n i : ℕ} {compromised : ℕ → Bool}
    (h : i ∈ (aliveIndices n compromised).take k) : i < n :=
  lt_of_mem_aliveIndices (List.mem_of_mem_take h)

/-- **No wrong secret.**  When nothing but genuine shares is handed over, a fetch that
returns, returns the secret. -/
theorem eq_secret_of_fetch {caught : PyError → Bool} {secret v : Bytes} {k n : ℕ}
    {urandom : ℕ → ℕ → UInt8} {shares : List (ℤ × Bytes)}
    (hsplit : splitSecret secret k n urandom = .ok shares) {compromised : ℕ → Bool}
    {ask : ℕ → Answer} (hgenuine : Genuine shares ask)
    (h : fetch caught k n compromised ask = .returned v) : v = secret := by
  rw [fetch] at h
  split at h
  · exact nomatch h
  · rename_i henough
    cases hcollect : collect ask ((aliveIndices n compromised).take k) with
    | failed i e => simp [hcollect] at h
    | blocked => simp [hcollect] at h
    | shares collected =>
      simp only [hcollect, combined] at h
      rw [collect_genuine hgenuine hcollect] at h
      split at h
      · rename_i hcombine
        obtain rfl := Outcome.returned.inj h
        exact combineShares_dealt hsplit (nodup_picks k n compromised)
          (fun i hi => lt_of_mem_picks hi) (by rw [List.length_take]; omega) hcombine
      · exact nomatch h

/-- When nothing but genuine shares is handed over, a fetch returns the secret if the
holders it picks all hand over theirs, and otherwise it does not return. -/
theorem fetch_eq_returned_iff {caught : PyError → Bool} {secret : Bytes} {k n : ℕ}
    {urandom : ℕ → ℕ → UInt8} {shares : List (ℤ × Bytes)}
    (hsplit : splitSecret secret k n urandom = .ok shares) (hn : n ≤ 255)
    {compromised : ℕ → Bool} {ask : ℕ → Answer} (hgenuine : Genuine shares ask) (v : Bytes) :
    fetch caught k n compromised ask = .returned v ↔
      v = secret ∧ k ≤ (aliveIndices n compromised).length ∧
        ∀ i ∈ (aliveIndices n compromised).take k, ∃ x y, ask i = .reply x y := by
  set alive := aliveIndices n compromised with halive
  have hnodup : (alive.take k).Nodup := nodup_picks k n compromised
  have hlt : ∀ i ∈ alive.take k, i < n := fun i hi => lt_of_mem_picks hi
  rw [fetch, ← halive]
  by_cases hfew : alive.length < k
  · rw [if_pos hfew]
    constructor
    · exact fun h => nomatch h
    · rintro ⟨-, hk, -⟩
      omega
  · rw [if_neg hfew]
    have hk : k ≤ alive.length := by omega
    cases hcollect : collect ask (alive.take k) with
    | shares collected =>
      have hall := collect_eq_shares.mp hcollect
      have hcombine := combineShares_picks hsplit hn hnodup hlt
        (by rw [List.length_take, min_eq_left hk])
      rw [collect_genuine hgenuine hcollect]
      simp only [combined, hcombine, Outcome.returned.injEq]
      constructor
      · rintro rfl
        refine ⟨rfl, hk, fun i hi => ?_⟩
        obtain ⟨j, hj, rfl⟩ := List.mem_iff_getElem.mp hi
        obtain ⟨hlen, hget⟩ := List.forall₂_iff_get.mp hall
        exact ⟨_, _, hget j hj (hlen ▸ hj)⟩
      · exact fun h => h.1.symm
    | failed i e =>
      refine ⟨(nomatch ·), fun ⟨_, _, hall⟩ => ?_⟩
      obtain ⟨collected, hc⟩ := collect_of_replies hall
      exact nomatch hcollect.symm.trans hc
    | blocked =>
      refine ⟨(nomatch ·), fun ⟨_, _, hall⟩ => ?_⟩
      obtain ⟨collected, hc⟩ := collect_of_replies hall
      exact nomatch hcollect.symm.trans hc

/-! ### The tally of compromised holders -/

/-- `_compromised_indices`, `_kill_triggered`, and whether the main process has been
sent `SIGKILL`. -/
structure Tally where
  compromised : Finset ℕ
  killTriggered : Bool
  killed : Bool

def Tally.new : Tally := ⟨∅, false, false⟩

/-- The steps of `_on_holder_compromised`. -/
inductive Mark
  | check
  | add
  | guard
  | compare
  | trigger
  | kill
  | done
  deriving DecidableEq, Repr

/-- One step of `_on_holder_compromised(index)`. -/
def Mark.step (killThreshold : ℤ) (index : ℕ) (tally : Tally) : Mark → Tally × Mark
  | .check => (tally, if index ∈ tally.compromised then .done else .add)
  | .add => ({ tally with compromised := insert index tally.compromised }, .guard)
  | .guard => (tally, if tally.killTriggered = true ∨ killThreshold ≤ 0 then .done else .compare)
  | .compare => (tally, if (tally.compromised.card : ℤ) ≥ killThreshold then .trigger else .done)
  | .trigger => ({ tally with killTriggered := true }, .kill)
  | .kill => ({ tally with killed := true }, .done)
  | .done => (tally, .done)

/-! ### Fetching as a thread -/

/-- What a step tells a thread: that a call begins, whether an index is recorded as
compromised, or how its exchange with a holder has ended. -/
inductive News
  | quiet
  | call
  | found (i : ℕ) (compromised : Bool)
  | heard (i : ℕ) (answer : Answer)
  deriving DecidableEq, Repr

/-- What a thread has been told since its call began. -/
structure Notes where
  compromised : ℕ → Bool
  answer : ℕ → Answer

def Notes.blank : Notes := ⟨fun _ => false, fun _ => .silence⟩

def Notes.read (notes : Notes) : News → Notes
  | .quiet => notes
  | .call => .blank
  | .found i compromised =>
    { notes with compromised := Function.update notes.compromised i compromised }
  | .heard i answer => { notes with answer := Function.update notes.answer i answer }

/-- Progress of the exchange with one holder. -/
inductive Progress (τ : Type)
  | more (talk : τ)
  | reply (x : ℤ) (y : Bytes)
  | raises (e : PyError)

/-- Where a thread is in `fetch`.  `rest` starts with the holder being asked. -/
inductive FetchPhase (τ : Type)
  | idle
  | scanning (next : ℕ) (alive : List ℕ)
  | waiting (alive : List ℕ)
  | asking (rest : List ℕ) (collected : List (ℤ × Bytes)) (talk : τ)
  | marking (index : ℕ) (mark : Mark)
  | combining (collected : List (ℤ × Bytes))
  | returned (secret : Bytes)
  | raised (e : PyError)

/-- Who holds `self._lock`. -/
inductive Owner
  | fetcher (t : ℕ)
  | monitor
  deriving DecidableEq, Repr

/-- A trust group: the holders and the connections to them, the tally and the lock. -/
structure TrustGroup (W : Type) where
  world : W
  tally : Tally
  lock : Option Owner

/-- How a group's `fetch` talks to a holder, and what else it is given. -/
structure Protocol (W τ : Type) where
  k : ℕ
  n : ℕ
  killThreshold : ℤ
  caught : PyError → Bool
  start : τ
  /-- One step of the exchange with holder `i`. -/
  talk : W → ℕ → τ → W → Progress τ → Prop

section Steps

variable {W τ : Type}

/-- The steps of thread `t` in `fetch`. -/
inductive FetchStep (p : Protocol W τ) (t : ℕ) :
    TrustGroup W → FetchPhase τ → News → TrustGroup W → FetchPhase τ → Prop
  | call {g : TrustGroup W} : FetchStep p t g .idle .call g (.scanning 0 [])
  | scan {g : TrustGroup W} {i : ℕ} {alive : List ℕ} : i < p.n →
      FetchStep p t g (.scanning i alive) (.found i (i ∈ g.tally.compromised))
        g (.scanning (i + 1) (if i ∈ g.tally.compromised then alive else alive ++ [i]))
  | few {g : TrustGroup W} {alive : List ℕ} : alive.length < p.k →
      FetchStep p t g (.scanning p.n alive) .quiet g (.raised .trustGroupCompromised)
  | enough {g : TrustGroup W} {alive : List ℕ} : ¬ alive.length < p.k →
      FetchStep p t g (.scanning p.n alive) .quiet g (.waiting alive)
  | acquire {g : TrustGroup W} {alive : List ℕ} : g.lock = none →
      FetchStep p t g (.waiting alive) .quiet
        { g with lock := some (.fetcher t) } (.asking (alive.take p.k) [] p.start)
  | more {g : TrustGroup W} {i : ℕ} {rest : List ℕ} {collected : List (ℤ × Bytes)} {talk talk' : τ}
      {world : W} : p.talk g.world i talk world (.more talk') →
      FetchStep p t g (.asking (i :: rest) collected talk) .quiet
        { g with world := world } (.asking (i :: rest) collected talk')
  | reply {g : TrustGroup W} {i : ℕ} {rest : List ℕ} {collected : List (ℤ × Bytes)} {talk : τ}
      {world : W} {x : ℤ} {y : Bytes} : p.talk g.world i talk world (.reply x y) →
      FetchStep p t g (.asking (i :: rest) collected talk) (.heard i (.reply x y))
        { g with world := world } (.asking rest (collected ++ [(x, y)]) p.start)
  | fail {g : TrustGroup W} {i : ℕ} {rest : List ℕ} {collected : List (ℤ × Bytes)} {talk : τ}
      {world : W} {e : PyError} : p.talk g.world i talk world (.raises e) → p.caught e = true →
      FetchStep p t g (.asking (i :: rest) collected talk) (.heard i (.raises e))
        { g with world := world } (.marking i .check)
  | escape {g : TrustGroup W} {i : ℕ} {rest : List ℕ} {collected : List (ℤ × Bytes)} {talk : τ}
      {world : W} {e : PyError} : p.talk g.world i talk world (.raises e) → p.caught e = false →
      FetchStep p t g (.asking (i :: rest) collected talk) (.heard i (.raises e))
        { g with world := world, lock := none } (.raised e)
  | mark {g : TrustGroup W} {i : ℕ} {mark : Mark} : mark ≠ .done →
      FetchStep p t g (.marking i mark) .quiet
        { g with tally := (mark.step p.killThreshold i g.tally).1 }
        (.marking i (mark.step p.killThreshold i g.tally).2)
  | marked {g : TrustGroup W} {i : ℕ} :
      FetchStep p t g (.marking i .done) .quiet
        { g with lock := none } (.raised .trustGroupCompromised)
  | release {g : TrustGroup W} {collected : List (ℤ × Bytes)} {talk : τ} :
      FetchStep p t g (.asking [] collected talk) .quiet
        { g with lock := none } (.combining collected)
  | combine {g : TrustGroup W} {collected : List (ℤ × Bytes)} {secret : Bytes} :
      combineShares collected = .ok secret →
      FetchStep p t g (.combining collected) .quiet g (.returned secret)
  | combineFail {g : TrustGroup W} {collected : List (ℤ × Bytes)} {e : PyError} :
      combineShares collected = .error e →
      FetchStep p t g (.combining collected) .quiet g (.raised e)
  | leave {g : TrustGroup W} {v : Bytes} : FetchStep p t g (.returned v) .quiet g .idle
  | catch_ {g : TrustGroup W} {e : PyError} : FetchStep p t g (.raised e) .quiet g .idle

/-- What a thread has been told accounts for where it is: `fetch`, given that, is there
or has ended as the thread has. -/
def Explained (p : Protocol W τ) (notes : Notes) : FetchPhase τ → Prop
  | .idle => True
  | .scanning i alive => alive = aliveIndices i notes.compromised
  | .waiting alive => alive = aliveIndices p.n notes.compromised ∧ ¬ alive.length < p.k
  | .asking rest collected _ => ¬ (aliveIndices p.n notes.compromised).length < p.k ∧
      ∃ asked, (aliveIndices p.n notes.compromised).take p.k = asked ++ rest ∧
        collect notes.answer asked = .shares collected
  | .marking _ _ =>
    fetch p.caught p.k p.n notes.compromised notes.answer = .raised .trustGroupCompromised
  | .combining collected =>
    fetch p.caught p.k p.n notes.compromised notes.answer = combined collected
  | .returned v => fetch p.caught p.k p.n notes.compromised notes.answer = .returned v
  | .raised e => fetch p.caught p.k p.n notes.compromised notes.answer = .raised e

end Steps

/-! ### The thread follows the function -/

theorem aliveIndices_succ (i : ℕ) (compromised : ℕ → Bool) :
    aliveIndices (i + 1) compromised
      = if compromised i then aliveIndices i compromised
        else aliveIndices i compromised ++ [i] := by
  rw [aliveIndices, List.range_succ, List.filter_append, aliveIndices]
  cases h : compromised i <;> simp [h]

theorem aliveIndices_update {n i : ℕ} (h : n ≤ i) (compromised : ℕ → Bool) (b : Bool) :
    aliveIndices n (Function.update compromised i b) = aliveIndices n compromised := by
  refine List.filter_congr fun j hj => ?_
  have hne : j ≠ i := by
    have := List.mem_range.mp hj
    omega
  rw [Function.update_of_ne hne]

theorem collect_congr {ask ask' : ℕ → Answer} {picks : List ℕ}
    (h : ∀ i ∈ picks, ask' i = ask i) : collect ask' picks = collect ask picks := by
  induction picks with
  | nil => rfl
  | cons i rest ih =>
    rw [collect, collect, h i List.mem_cons_self,
      ih fun j hj => h j (List.mem_cons_of_mem _ hj)]

theorem collect_append_reply {ask : ℕ → Answer} {asked : List ℕ}
    {collected : List (ℤ × Bytes)} (h : collect ask asked = .shares collected) {i : ℕ} {x : ℤ}
    {y : Bytes} (hask : ask i = .reply x y) :
    collect ask (asked ++ [i]) = .shares (collected ++ [(x, y)]) :=
  collect_eq_shares.mpr (List.rel_append (collect_eq_shares.mp h)
    (List.Forall₂.cons hask List.Forall₂.nil))

theorem collect_append_raises {ask : ℕ → Answer} {asked : List ℕ}
    {collected : List (ℤ × Bytes)} (h : collect ask asked = .shares collected) {i : ℕ}
    {e : PyError} (hask : ask i = .raises e) (rest : List ℕ) :
    collect ask (asked ++ i :: rest) = .failed i e := by
  induction asked generalizing collected with
  | nil => rw [List.nil_append, collect, hask]
  | cons j asked ih =>
    rw [collect] at h
    rw [List.cons_append, collect]
    cases hj : ask j with
    | raises e' => simp [hj] at h
    | silence => simp [hj] at h
    | reply x y =>
      cases hrest : collect ask asked with
      | shares l => simp only [ih hrest]
      | failed m e' => simp [hj, hrest] at h
      | blocked => simp [hj, hrest] at h

section Following

variable {W τ : Type} {p : Protocol W τ} {shares : List (ℤ × Bytes)}

/-- No holder that is still to be asked has answered. -/
def Unheard (notes : Notes) : FetchPhase τ → Prop
  | .scanning _ _ | .waiting _ => ∀ i, notes.answer i = .silence
  | .asking rest _ _ => ∀ i ∈ rest, notes.answer i = .silence
  | _ => True

/-- The notes of a thread, with nothing but genuine shares in them, account for its
phase. -/
structure Observed (p : Protocol W τ) (shares : List (ℤ × Bytes)) (notes : Notes)
    (phase : FetchPhase τ) : Prop where
  genuine : Genuine shares notes.answer
  explained : Explained p notes phase
  unheard : Unheard notes phase

theorem observed_blank (p : Protocol W τ) (shares : List (ℤ × Bytes)) :
    Observed p shares .blank (.idle : FetchPhase τ) := by
  refine ⟨fun i x y heq => ?_, trivial, trivial⟩
  cases heq

theorem genuine_update {ask : ℕ → Answer} (h : Genuine shares ask) {i : ℕ} {answer : Answer}
    (hi : ∀ x y, answer = .reply x y → (x, y) = shares.getD i default) :
    Genuine shares (Function.update ask i answer) := by
  intro j x y hj
  by_cases hji : j = i
  · subst hji
    rw [Function.update_self] at hj
    exact hi x y hj
  · rw [Function.update_of_ne hji] at hj
    exact h j x y hj

theorem genuine_raises {ask : ℕ → Answer} (h : Genuine shares ask) (i : ℕ) (e : PyError) :
    Genuine shares (Function.update ask i (.raises e)) := by
  refine genuine_update h fun x y heq => ?_
  cases heq

/-- The holder being asked has not been asked before. -/
theorem collect_update {compromised : ℕ → Bool} {ask : ℕ → Answer} {k n i : ℕ}
    {asked rest : List ℕ} (hpicks : (aliveIndices n compromised).take k = asked ++ i :: rest)
    (answer : Answer) :
    collect (Function.update ask i answer) asked = collect ask asked := by
  have hnodup := nodup_picks k n compromised
  rw [hpicks] at hnodup
  refine collect_congr fun j hj => Function.update_of_ne ?_ _ _
  rintro rfl
  exact (List.nodup_append.mp hnodup).2.2 j hj j List.mem_cons_self rfl

/-- The exchange that raises is the first that does. -/
theorem Explained.raises {notes : Notes} {i : ℕ} {rest : List ℕ} {collected : List (ℤ × Bytes)}
    {talk : τ} (h : Explained p notes (.asking (i :: rest) collected talk)) (e : PyError) :
    fetch p.caught p.k p.n notes.compromised (Function.update notes.answer i (.raises e)) =
      .raised (if p.caught e then .trustGroupCompromised else e) := by
  obtain ⟨henough, asked, hpicks, hcollect⟩ := h
  rw [← collect_update hpicks (.raises e)] at hcollect
  rw [fetch, if_neg henough, hpicks, collect_append_raises hcollect (Function.update_self ..)]

/-- **A fetching thread follows `fetch`**, whatever happens between its steps, as long
as the shares it receives are genuine. -/
theorem Observed.step {t : ℕ} {g g' : TrustGroup W} {phase phase' : FetchPhase τ} {notes : Notes}
    {news : News} (h : Observed p shares notes phase)
    (hstep : FetchStep p t g phase news g' phase')
    (hreply : ∀ {i rest collected talk world x y}, phase = .asking (i :: rest) collected talk →
      p.talk g.world i talk world (.reply x y) → (x, y) = shares.getD i default) :
    Observed p shares (notes.read news) phase' := by
  obtain ⟨hgen, hexp, hunheard⟩ := h
  cases hstep with
  | call => exact ⟨(observed_blank p shares).genuine, rfl, fun _ => rfl⟩
  | @scan i alive hi =>
    obtain rfl := hexp
    refine ⟨hgen, ?_, hunheard⟩
    rw [Explained, Notes.read, aliveIndices_succ, aliveIndices_update le_rfl]
    simp only [Function.update_self, decide_eq_true_eq]
  | few hfew =>
    obtain rfl := hexp
    exact ⟨hgen, if_pos hfew, trivial⟩
  | enough henough => exact ⟨hgen, ⟨hexp, henough⟩, hunheard⟩
  | acquire _ =>
    obtain ⟨rfl, henough⟩ := hexp
    exact ⟨hgen, ⟨henough, [], rfl, rfl⟩, fun i _ => hunheard i⟩
  | more _ => exact ⟨hgen, hexp, hunheard⟩
  | @reply i rest collected talk world x y htalk =>
    obtain ⟨henough, asked, hpicks, hcollect⟩ := hexp
    have hcollect' := hcollect
    rw [← collect_update hpicks (.reply x y)] at hcollect'
    refine ⟨genuine_update hgen ?_, ⟨henough, asked ++ [i],
      by rw [Notes.read, hpicks, List.append_assoc]; rfl,
      collect_append_reply hcollect' (Function.update_self ..)⟩, fun j hj => ?_⟩
    · rintro x' y' heq
      obtain ⟨rfl, rfl⟩ := Answer.reply.inj heq
      exact hreply rfl htalk
    -- the one that has answered is not among those that are left
    · have hnodup := nodup_picks p.k p.n notes.compromised
      rw [hpicks] at hnodup
      have hne : j ≠ i := by
        rintro rfl
        exact (List.nodup_cons.mp (List.nodup_append.mp hnodup).2.1).1 hj
      exact (Function.update_of_ne hne ..).trans (hunheard j (List.mem_cons_of_mem i hj))
  | @fail i rest collected talk world e htalk hcaught =>
    refine ⟨genuine_raises hgen i e, (hexp.raises e).trans ?_, trivial⟩
    rw [if_pos hcaught]
  | @escape i rest collected talk world e htalk hcaught =>
    refine ⟨genuine_raises hgen i e, (hexp.raises e).trans ?_, trivial⟩
    simp only [hcaught, Bool.false_eq_true, if_false]
  | mark _ => exact ⟨hgen, hexp, trivial⟩
  | marked => exact ⟨hgen, hexp, trivial⟩
  | release =>
    obtain ⟨henough, asked, hpicks, hcollect⟩ := hexp
    rw [List.append_nil] at hpicks
    refine ⟨hgen, ?_, trivial⟩
    rw [Explained, Notes.read, fetch, if_neg henough, hpicks, hcollect]
  | combine hcombine => exact ⟨hgen, hexp.trans (by rw [combined, hcombine]), trivial⟩
  | combineFail hcombine => exact ⟨hgen, hexp.trans (by rw [combined, hcombine]), trivial⟩
  | leave => exact ⟨hgen, trivial, trivial⟩
  | catch_ => exact ⟨hgen, trivial, trivial⟩

/-- The phases in which a thread holds the lock. -/
def FetchPhase.Locked : FetchPhase τ → Prop
  | .asking .. | .marking .. => True
  | _ => False

/-- A fetching thread reaches the holders through its exchanges only, and under the
lock. -/
theorem FetchStep.world_cases {t : ℕ} {g g' : TrustGroup W} {phase phase' : FetchPhase τ} {news : News}
    (h : FetchStep p t g phase news g' phase') :
    g'.world = g.world ∨
      phase.Locked ∧ ∃ i talk progress, p.talk g.world i talk g'.world progress := by
  cases h with
  | more htalk => exact Or.inr ⟨trivial, _, _, _, htalk⟩
  | reply htalk => exact Or.inr ⟨trivial, _, _, _, htalk⟩
  | fail htalk => exact Or.inr ⟨trivial, _, _, _, htalk⟩
  | escape htalk => exact Or.inr ⟨trivial, _, _, _, htalk⟩
  | _ => exact Or.inl rfl

/-- **The lock.**  A thread is in a locked phase only while it holds the lock, and no
step of it takes the lock from anyone else. -/
theorem FetchStep.lock {t : ℕ} {g g' : TrustGroup W} {phase phase' : FetchPhase τ} {news : News}
    (h : FetchStep p t g phase news g' phase') (hlock : phase.Locked → g.lock = some (.fetcher t)) :
    (phase'.Locked → g'.lock = some (.fetcher t)) ∧
      ∀ owner, owner ≠ .fetcher t → g.lock = some owner → g'.lock = some owner := by
  cases h with
  | acquire hfree =>
    refine ⟨fun _ => rfl, fun owner _ ho => ?_⟩
    exact nomatch hfree.symm.trans ho
  | more => exact ⟨fun _ => hlock trivial, fun _ _ ho => ho⟩
  | reply => exact ⟨fun _ => hlock trivial, fun _ _ ho => ho⟩
  | fail => exact ⟨fun _ => hlock trivial, fun _ _ ho => ho⟩
  | mark => exact ⟨fun _ => hlock trivial, fun _ _ ho => ho⟩
  | escape =>
    exact ⟨False.elim, fun owner hne ho =>
      absurd (Option.some.inj (ho.symm.trans (hlock trivial))) hne⟩
  | marked =>
    exact ⟨False.elim, fun owner hne ho =>
      absurd (Option.some.inj (ho.symm.trans (hlock trivial))) hne⟩
  | release =>
    exact ⟨False.elim, fun owner hne ho =>
      absurd (Option.some.inj (ho.symm.trans (hlock trivial))) hne⟩
  | _ => exact ⟨False.elim, fun _ _ ho => ho⟩

/-- A thread that has been told nothing but genuine shares has returned the secret, if
it has returned. -/
theorem Observed.eq_secret {secret v : Bytes} {urandom : ℕ → ℕ → UInt8} {notes : Notes}
    (h : Observed p shares notes (.returned v))
    (hsplit : splitSecret secret p.k p.n urandom = .ok shares) : v = secret :=
  eq_secret_of_fetch hsplit h.genuine h.explained

/-- The call has come to its end. -/
def FetchPhase.Ended : FetchPhase τ → Prop
  | .returned _ | .raised _ => True
  | _ => False

/-- The holders that a call picks are there, and answer. -/
def Notes.PicksAnswer (k n : ℕ) (notes : Notes) : Prop :=
  k ≤ (aliveIndices n notes.compromised).length ∧
    ∀ i ∈ (aliveIndices n notes.compromised).take k, ∃ x y, notes.answer i = .reply x y

/-- What a call that its picks have answered gives. -/
theorem Observed.fetch_eq {secret : Bytes} {urandom : ℕ → ℕ → UInt8} {notes : Notes}
    {phase : FetchPhase τ} (h : Observed p shares notes phase)
    (hsplit : splitSecret secret p.k p.n urandom = .ok shares) (hn : p.n ≤ 255) :
    fetch p.caught p.k p.n notes.compromised notes.answer = .returned secret ↔
      notes.PicksAnswer p.k p.n :=
  (fetch_eq_returned_iff hsplit hn h.genuine secret).trans (and_iff_right rfl)

/-- A call that has ended has returned the secret if the holders it picked have answered,
and otherwise it has raised. -/
theorem Observed.returned_iff {secret : Bytes} {urandom : ℕ → ℕ → UInt8} {notes : Notes}
    {phase : FetchPhase τ} (h : Observed p shares notes phase)
    (hsplit : splitSecret secret p.k p.n urandom = .ok shares) (hn : p.n ≤ 255)
    (hended : phase.Ended) : phase = .returned secret ↔ notes.PicksAnswer p.k p.n := by
  have hfetch := h.fetch_eq hsplit hn
  have hexp := h.explained
  cases phase with
  | returned v =>
    obtain rfl := h.eq_secret hsplit
    exact iff_of_true rfl (hfetch.mp hexp)
  | raised e =>
    refine iff_of_false (fun heq => nomatch heq) fun hpicks => ?_
    exact nomatch hexp.symm.trans (hfetch.mpr hpicks)
  | _ => exact hended.elim

/-- The steps of thread `t` alone. -/
def Fetching (p : Protocol W τ) (t : ℕ) :
    TrustGroup W × FetchPhase τ → News → TrustGroup W × FetchPhase τ → Prop :=
  fun s news s' => FetchStep p t s.1 s.2 news s'.1 s'.2

theorem ends_of_combining {secret : Bytes} {collected : List (ℤ × Bytes)} (t : ℕ)
    (g : TrustGroup W) (h : combined collected = .returned secret) :
    Inevitable (Fetching p t) (fun s => s.2 = .returned secret) (g, .combining collected) := by
  have hcombine : combineShares collected = .ok secret := by
    rw [combined] at h
    split at h
    · rename_i hcombine
      rwa [Outcome.returned.inj h] at hcombine
    · cases h
  refine .later ⟨.quiet, (g, .returned secret), .combine hcombine⟩ fun news s hs => ?_
  obtain ⟨g', phase⟩ := s
  cases hs with
  | combine hcombine' =>
    obtain rfl := Except.ok.inj (hcombine.symm.trans hcombine')
    exact .now rfl
  | combineFail hfail => exact nomatch hcombine.symm.trans hfail

/-- **The end of a call.**  When the holders that a call picked have all answered, its own
steps can only lead to the return of the secret. -/
theorem Observed.ends {secret : Bytes} {urandom : ℕ → ℕ → UInt8} {notes : Notes}
    {phase : FetchPhase τ} (h : Observed p shares notes phase)
    (hsplit : splitSecret secret p.k p.n urandom = .ok shares) (hn : p.n ≤ 255)
    (hpicks : notes.PicksAnswer p.k p.n) (hidle : phase ≠ .idle) (t : ℕ) (g : TrustGroup W) :
    Inevitable (Fetching p t) (fun s => s.2 = .returned secret) (g, phase) := by
  have hfetch := (h.fetch_eq hsplit hn).mpr hpicks
  have hexp := h.explained
  have hunheard := h.unheard
  obtain ⟨hk, hanswers⟩ := hpicks
  have hsilent : ∀ i ∈ (aliveIndices p.n notes.compromised).take p.k,
      notes.answer i ≠ .silence := by
    intro i hi hsilence
    obtain ⟨x, y, hreply⟩ := hanswers i hi
    cases hsilence.symm.trans hreply
  -- some holder was picked
  have hasked : ¬ ∀ i, notes.answer i = .silence := by
    intro hall
    have hpos : 0 < ((aliveIndices p.n notes.compromised).take p.k).length := by
      rw [List.length_take]
      exact lt_min (threshold_of_splitSecret hsplit).1
        (lt_of_lt_of_le (threshold_of_splitSecret hsplit).1 hk)
    obtain ⟨i, hi⟩ := List.exists_mem_of_length_pos hpos
    exact hsilent i hi (hall i)
  cases phase with
  | idle => exact absurd rfl hidle
  | scanning | waiting => exact absurd hunheard hasked
  | asking rest collected talk =>
    obtain ⟨henough, asked, hpicked, hcollect⟩ := hexp
    cases rest with
    | cons i rest =>
      refine absurd (hunheard i List.mem_cons_self) (hsilent i ?_)
      rw [hpicked]
      exact List.mem_append_right _ List.mem_cons_self
    | nil =>
      refine .later ⟨.quiet, ({ g with lock := none }, .combining collected), .release⟩
        fun news s hs => ?_
      obtain ⟨g', phase⟩ := s
      cases hs with
      | release =>
        refine ends_of_combining t _ ?_
        rwa [fetch, if_neg henough, hpicked, List.append_nil, hcollect] at hfetch
  | marking | raised => exact nomatch hexp.symm.trans hfetch
  | combining collected => exact ends_of_combining t g (hexp.symm.trans hfetch)
  | returned v => exact .now (congrArg _ (h.eq_secret hsplit))

/-- A call that has ended has returned the secret exactly when its picks have answered, and
one whose picks have answered can only end so. -/
def DecidedByPicks (p : Protocol W τ) (secret : Bytes) (t : ℕ) (notes : Notes)
    (g : TrustGroup W) (phase : FetchPhase τ) : Prop :=
  (phase.Ended → (phase = .returned secret ↔ notes.PicksAnswer p.k p.n)) ∧
    (notes.PicksAnswer p.k p.n → phase ≠ .idle →
      Inevitable (Fetching p t) (fun s => s.2 = .returned secret) (g, phase))

theorem Observed.decidedByPicks {secret : Bytes} {urandom : ℕ → ℕ → UInt8} {notes : Notes}
    {phase : FetchPhase τ} (h : Observed p shares notes phase)
    (hsplit : splitSecret secret p.k p.n urandom = .ok shares) (hn : p.n ≤ 255) (t : ℕ)
    (g : TrustGroup W) : DecidedByPicks p secret t notes g phase :=
  ⟨h.returned_iff hsplit hn, fun hpicks hidle => h.ends hsplit hn hpicks hidle t g⟩

end Following
