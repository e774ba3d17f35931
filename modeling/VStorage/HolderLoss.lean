/-
What a fetch does when no holder it asks is lost.

The shares need not be genuine here: as long as every holder that is asked carries its
exchange through, and enough holders live, a call of `fetch` runs into none of its
exceptions (`Steady.step`): it finds enough holders, hears from each, and what it
collects can be combined.
-/
import Mathlib
import VStorage.DistributedTrustGroup

namespace DistributedTrustGroup

/-- The holder can carry on the exchange: it is there, or its answer is. -/
def Answers (h : Holder) : Talk → Prop
  | .toSend => h.running = true
  | .sent => h.running = true ∨ h.replies ≠ []

/-- Enough holders are alive, and no thread asks one that is lost. -/
structure Tolerated (k n : ℕ) (s : State) (event : Event) : Prop where
  enough : k ≤ ((Finset.range n).filter fun i => (s.group.world i).running = true).card
  answers : ∀ t news i rest collected talk, event = .fetcher t news →
    s.fetchers t = .asking (i :: rest) collected talk → Answers (s.group.world i) talk

/-- A share with the index and the length of the dealt one. -/
def Fits (share reply : ℤ × Bytes) : Prop := reply.1 = share.1 ∧ reply.2.length = share.2.length

/-- A holder whose page, copy and answers have the right size, whatever is in them. -/
structure Sized (share : ℤ × Bytes) (h : Holder) : Prop where
  dealt : (h.x, h.shareBytes) = share
  page : h.page.length = share.2.length
  sending : ∀ copy, h.phase = .sending copy → copy.length = share.2.length
  replies : ∀ reply ∈ h.replies, Fits share reply

theorem Sized.new (share : ℤ × Bytes) : Sized share (Holder.new share) :=
  ⟨rfl, rfl, nofun, nofun⟩

theorem Sized.serve {share : ℤ × Bytes} {h : Holder} (hh : Sized share h) :
    Sized share h.serve := by
  unfold Holder.serve
  split
  · split
    · exact hh
    · exact ⟨hh.dealt, hh.page, nofun, hh.replies⟩
    · exact ⟨hh.dealt, hh.page, hh.sending, hh.replies⟩
  · refine ⟨hh.dealt, hh.page, fun copy hcopy => ?_, hh.replies⟩
    obtain rfl := HolderPhase.sending.inj hcopy
    exact hh.page
  · rename_i copy hphase
    refine ⟨hh.dealt, hh.page, nofun, fun reply hreply => ?_⟩
    rcases List.mem_append.mp hreply with hreply | hreply
    · exact hh.replies reply hreply
    · rw [List.mem_singleton.mp hreply]
      exact ⟨show h.x = share.1 from congrArg Prod.fst hh.dealt, hh.sending copy hphase⟩

theorem Sized.wipe {share : ℤ × Bytes} {h : Holder} (hh : Sized share h) :
    Sized share h.wipe := by
  refine ⟨hh.dealt, ?_, hh.sending, hh.replies⟩
  rw [← hh.dealt]
  exact List.length_replicate

theorem Sized.exit {share : ℤ × Bytes} {h : Holder} (hh : Sized share h) :
    Sized share h.exit := ⟨hh.dealt, hh.page, hh.sending, hh.replies⟩

theorem Sized.leave {share : ℤ × Bytes} {h : Holder} (hh : Sized share h) :
    Sized share h.leave := ⟨hh.dealt, hh.page, hh.sending, hh.replies⟩

/-- A thread on its way to a secret: it has skipped no holder that is alive, and what it
has collected comes from different holders. -/
def OnCourse (k n : ℕ) (shares : List (ℤ × Bytes)) (w : ℕ → Holder) :
    FetchPhase Talk → Prop
  | .idle | .returned _ => True
  | .scanning i alive =>
    alive.Nodup ∧ (∀ j ∈ alive, j < i) ∧ i ≤ n ∧ ∀ j < i, (w j).running = true → j ∈ alive
  | .waiting alive => alive.Nodup ∧ (∀ j ∈ alive, j < n) ∧ k ≤ alive.length
  | .asking rest collected _ => ∃ asked, (asked ++ rest).Nodup ∧ (∀ j ∈ asked ++ rest, j < n) ∧
      asked ++ rest ≠ [] ∧ List.Forall₂ (fun j s => Fits (shares.getD j default) s) asked collected
  | .combining collected => ∃ asked, asked.Nodup ∧ (∀ j ∈ asked, j < n) ∧ asked ≠ [] ∧
      List.Forall₂ (fun j s => Fits (shares.getD j default) s) asked collected
  | .marking .. | .raised _ => False

/-- The invariant: who is recorded as lost is lost, and every thread is on its course. -/
structure Steady (k n : ℕ) (shares : List (ℤ × Bytes)) (s : State) : Prop where
  holders : ∀ i, Sized (shares.getD i default) (s.group.world i)
  recorded : ∀ i ∈ s.group.tally.compromised, (s.group.world i).running = false
  marking : ∀ i mark, s.monitor = .marking i mark → (s.group.world i).running = false
  fetchers : ∀ t, OnCourse k n shares s.group.world (s.fetchers t)

theorem steady_start (k n : ℕ) (shares : List (ℤ × Bytes)) : Steady k n shares (start shares) :=
  ⟨fun _ => .new _, fun _ h => absurd h (Finset.notMem_empty _), nofun, fun _ => trivial⟩

section Steps

variable {k n : ℕ} {killThreshold : ℤ} {shares : List (ℤ × Bytes)} {s s' : State}

/-- Losing holders does not get a thread off its course. -/
theorem OnCourse.mono {w w' : ℕ → Holder} {phase : FetchPhase Talk}
    (h : OnCourse k n shares w phase)
    (hle : ∀ j, (w' j).running = true → (w j).running = true) : OnCourse k n shares w' phase := by
  cases phase with
  | scanning i alive =>
    obtain ⟨hnodup, hlt, hi, hall⟩ := h
    exact ⟨hnodup, hlt, hi, fun j hj hrun => hall j hj (hle j hrun)⟩
  | _ => exact h

/-- An exchange kills no one and brings no one back. -/
theorem PipeTalk.running {w w' : ℕ → Holder} {i : ℕ} {talk : Talk} {progress : Progress Talk}
    (h : PipeTalk w i talk w' progress) (j : ℕ) : (w' j).running = (w j).running := by
  cases h with
  | send | recv =>
    by_cases hj : j = i
    · subst hj
      rw [Function.update_self]
    · rw [Function.update_of_ne hj]
  | broken => rfl
  | eof => rfl

theorem PipeTalk.sized {w w' : ℕ → Holder} {i : ℕ} {talk : Talk} {progress : Progress Talk}
    (h : PipeTalk w i talk w' progress) (hw : ∀ j, Sized (shares.getD j default) (w j)) (j : ℕ) :
    Sized (shares.getD j default) (w' j) := by
  cases h with
  | send =>
    by_cases hj : j = i
    · subst hj
      rw [Function.update_self]
      exact ⟨(hw j).dealt, (hw j).page, (hw j).sending, (hw j).replies⟩
    · rw [Function.update_of_ne hj]
      exact hw j
  | recv hreplies =>
    by_cases hj : j = i
    · subst hj
      rw [Function.update_self]
      exact ⟨(hw j).dealt, (hw j).page, (hw j).sending, fun reply hr => (hw j).replies reply
        (hreplies ▸ List.mem_cons_of_mem _ hr)⟩
    · rw [Function.update_of_ne hj]
      exact hw j
  | broken => exact hw j
  | eof => exact hw j

/-- An exchange with a holder that answers does not fail. -/
theorem PipeTalk.not_raises {w w' : ℕ → Holder} {i : ℕ} {talk : Talk} {e : PyError}
    (h : PipeTalk w i talk w' (.raises e)) : ¬ Answers (w i) talk := by
  intro hanswers
  cases h with
  | broken hdead => exact Bool.false_ne_true (hdead.symm.trans hanswers)
  | eof hdead _ hnone =>
    rcases hanswers with hrun | hsome
    · exact Bool.false_ne_true (hdead.symm.trans hrun)
    · exact hsome hnone

/-- What comes from different holders can be combined. -/
theorem combineShares_of_fits {secret : Bytes} {urandom : ℕ → ℕ → UInt8}
    (hsplit : splitSecret secret k n urandom = .ok shares) (hn : n ≤ 255) {asked : List ℕ}
    (hnodup : asked.Nodup) (hlt : ∀ j ∈ asked, j < n) (hne : asked ≠ [])
    {collected : List (ℤ × Bytes)}
    (h : List.Forall₂ (fun j s => Fits (shares.getD j default) s) asked collected) :
    ∃ v, combineShares collected = .ok v := by
  obtain ⟨hkn, rfl⟩ := splitSecret_eq_ok hn hsplit
  have hget : ∀ j < n, ((List.range n).map fun i =>
      (GF256.toInt (GF256.index i), shareAt secret k urandom (GF256.index i))).getD j default
        = (GF256.toInt (GF256.index j), shareAt secret k urandom (GF256.index j)) := by
    intro j hj
    simp [hj]
  have hfits : ∀ s ∈ collected, s.2.length = secret.length := by
    clear hnodup hne
    induction h with
    | nil => exact nofun
    | @cons j s asked collected hjs _ ih =>
      obtain ⟨hj, hrest⟩ := List.forall_mem_cons.mp hlt
      refine List.forall_mem_cons.mpr ⟨?_, ih hrest⟩
      rw [hjs.2, hget j hj, shareAt_length]
  have hindex : collected.map Prod.fst = (asked.map GF256.index).map GF256.toInt := by
    clear hnodup hne hfits
    induction h with
    | nil => rfl
    | @cons j s asked collected hjs _ ih =>
      obtain ⟨hj, hrest⟩ := List.forall_mem_cons.mp hlt
      rw [List.map_cons, ih hrest, hjs.1, hget j hj]
      rfl
  refine combineShares_total ?_ (hnodup.map_on fun i hi j hj hij => ?_) hindex hfits
  · rintro rfl
    exact hne (List.forall₂_nil_right_iff.mp h)
  · have := congrArg GF256.toInt hij
    rw [GF256.toInt_index (by have := hlt i hi; omega),
      GF256.toInt_index (by have := hlt j hj; omega)] at this
    omega

/-- **A thread stays on its course** when the holder it asks answers and enough holders
live. -/
theorem Steady.fetch {secret : Bytes} {urandom : ℕ → ℕ → UInt8}
    (hsplit : splitSecret secret k n urandom = .ok shares) (hn : n ≤ 255)
    (h : Steady k n shares s) {t : ℕ} {phase phase' : FetchPhase Talk} {news : News}
    {g : TrustGroup (ℕ → Holder)} (hphase : s.fetchers t = phase)
    (hstep : FetchStep (protocol k n killThreshold) t s.group phase news g phase')
    (htol : Tolerated k n s (.fetcher t news)) :
    OnCourse k n shares g.world phase' ∧ g.tally = s.group.tally := by
  have hcourse := h.fetchers t
  rw [hphase] at hcourse
  have hanswers : ∀ {i rest collected talk}, phase = .asking (i :: rest) collected talk →
      Answers (s.group.world i) talk := fun heq =>
    htol.answers t news _ _ _ _ rfl (hphase.trans heq)
  cases hstep with
  | call => exact ⟨⟨List.nodup_nil, nofun, Nat.zero_le n, nofun⟩, rfl⟩
  | @scan i alive hi =>
    obtain ⟨hnodup, hlt, -, hall⟩ := hcourse
    refine ⟨?_, rfl⟩
    split
    · rename_i hrec
      refine ⟨hnodup, fun j hj => Nat.lt_succ_of_lt (hlt j hj), hi, fun j hj hrun => ?_⟩
      rcases Nat.lt_succ_iff_lt_or_eq.mp hj with hj | rfl
      · exact hall j hj hrun
      · exact absurd (h.recorded j hrec) (by rw [hrun]; decide)
    · refine ⟨?_, fun j hj => ?_, hi, fun j hj hrun => ?_⟩
      · rw [List.nodup_append]
        refine ⟨hnodup, List.nodup_singleton i, fun a ha b hb => ?_⟩
        rw [List.mem_singleton.mp hb]
        exact Nat.ne_of_lt (hlt a ha)
      · rcases List.mem_append.mp hj with hj | hj
        · exact Nat.lt_succ_of_lt (hlt j hj)
        · rw [List.mem_singleton.mp hj]
          exact Nat.lt_succ_self i
      · rcases Nat.lt_succ_iff_lt_or_eq.mp hj with hj | rfl
        · exact List.mem_append_left _ (hall j hj hrun)
        · exact List.mem_append_right _ List.mem_cons_self
  | @few alive hfew =>
    -- whoever is alive has been found
    obtain ⟨-, -, -, hall⟩ := hcourse
    have hsub : ((Finset.range n).filter fun i => (s.group.world i).running = true)
        ⊆ alive.toFinset := by
      intro j hj
      obtain ⟨hj, hrun⟩ := Finset.mem_filter.mp hj
      exact List.mem_toFinset.mpr (hall j (Finset.mem_range.mp hj) hrun)
    have hcard := (Finset.card_le_card hsub).trans (List.toFinset_card_le alive)
    exact absurd (htol.enough.trans hcard) (not_le.mpr hfew)
  | enough henough =>
    obtain ⟨hnodup, hlt, -, -⟩ := hcourse
    exact ⟨⟨hnodup, hlt, not_lt.mp henough⟩, rfl⟩
  | @acquire alive _ =>
    obtain ⟨hnodup, hlt, hlen⟩ := hcourse
    have hk := (threshold_of_splitSecret hsplit).1
    refine ⟨⟨[], hnodup.sublist (List.take_sublist _ _),
      fun j hj => hlt j (List.mem_of_mem_take hj), ?_, .nil⟩, rfl⟩
    rw [List.nil_append, ← List.length_pos_iff_ne_nil, List.length_take]
    exact lt_min hk (lt_of_lt_of_le hk hlen)
  | more htalk => exact ⟨hcourse, rfl⟩
  | @reply i rest collected talk world x y htalk =>
    obtain ⟨asked, hnodup, hlt, hne, hcollected⟩ := hcourse
    have hfits : Fits (shares.getD i default) (x, y) := by
      cases htalk with
      | recv hreplies => exact (h.holders i).replies _ (hreplies ▸ List.mem_cons_self)
    rw [List.append_cons] at hnodup hlt hne
    exact ⟨⟨asked ++ [i], hnodup, hlt, hne, List.rel_append hcollected (.cons hfits .nil)⟩, rfl⟩
  | fail htalk _ => exact absurd (hanswers rfl) (PipeTalk.not_raises htalk)
  | escape htalk _ => exact absurd (hanswers rfl) (PipeTalk.not_raises htalk)
  | mark _ => exact hcourse.elim
  | marked => exact hcourse.elim
  | release =>
    obtain ⟨asked, hnodup, hlt, hne, hcollected⟩ := hcourse
    rw [List.append_nil] at hnodup hlt hne
    exact ⟨⟨asked, hnodup, hlt, hne, hcollected⟩, rfl⟩
  | combine _ => exact ⟨trivial, rfl⟩
  | combineFail hfail =>
    obtain ⟨asked, hnodup, hlt, hne, hcollected⟩ := hcourse
    obtain ⟨v, hv⟩ := combineShares_of_fits hsplit hn hnodup hlt hne hcollected
    exact nomatch hfail.symm.trans hv
  | leave => exact ⟨trivial, rfl⟩
  | catch_ => exact hcourse.elim

/-- Marking a holder records no other. -/
theorem mem_mark_step {mark : Mark} {i j : ℕ} {tally : Tally}
    (h : j ∈ (mark.step killThreshold i tally).1.compromised) : j ∈ tally.compromised ∨ j = i := by
  cases mark with
  | add => exact (Finset.mem_insert.mp h).symm
  | _ => exact Or.inl h

theorem Steady.monitor (h : Steady k n shares s) {tally : Tally} {monitor : Monitor}
    (hstep : MonitorStep n killThreshold s.group s.monitor tally monitor) :
    Steady k n shares
      { s with group := { s.group with tally := tally }, monitor := monitor } := by
  generalize hm : s.monitor = m at hstep
  cases hstep with
  | found _ _ hdead =>
    refine ⟨h.holders, h.recorded, fun i mark heq => ?_, h.fetchers⟩
    obtain ⟨rfl, -⟩ := Monitor.marking.inj heq
    exact hdead
  | @mark i mark _ =>
    have hdead := h.marking i mark hm
    refine ⟨h.holders, fun j hj => ?_, fun j mark' heq => ?_, h.fetchers⟩
    · rcases mem_mark_step hj with hj | rfl
      · exact h.recorded j hj
      · exact hdead
    · obtain ⟨rfl, -⟩ := Monitor.marking.inj heq
      exact hdead
  | pass => exact ⟨h.holders, h.recorded, nofun, h.fetchers⟩
  | sleep => exact ⟨h.holders, h.recorded, nofun, h.fetchers⟩
  | marked => exact ⟨h.holders, h.recorded, nofun, h.fetchers⟩

/-- A holder changes, and does not come back to life. -/
theorem Steady.setHolder (h : Steady k n shares s) {i : ℕ} {holder : Holder}
    (hsized : Sized (shares.getD i default) holder)
    (hrun : holder.running = true → (s.group.world i).running = true) :
    Steady k n shares (s.setHolder i holder) := by
  have hle : ∀ j, ((s.setHolder i holder).group.world j).running = true →
      (s.group.world j).running = true := by
    intro j
    show (Function.update s.group.world i holder j).running = true → _
    by_cases hj : j = i
    · subst hj
      rwa [Function.update_self]
    · rw [Function.update_of_ne hj]
      exact id
  have hdead : ∀ j, (s.group.world j).running = false →
      ((s.setHolder i holder).group.world j).running = false := by
    intro j hj
    rw [Bool.eq_false_iff] at hj ⊢
    exact fun hrun => hj (hle j hrun)
  refine ⟨fun j => ?_, fun j hj => hdead j (h.recorded j hj),
    fun j mark hm => hdead j (h.marking j mark hm), fun t => (h.fetchers t).mono hle⟩
  show Sized _ (Function.update s.group.world i holder j)
  by_cases hj : j = i
  · subst hj
    rwa [Function.update_self]
  · rw [Function.update_of_ne hj]
    exact h.holders j

theorem Steady.step {secret : Bytes} {urandom : ℕ → ℕ → UInt8}
    (hsplit : splitSecret secret k n urandom = .ok shares) (hn : n ≤ 255)
    (h : Steady k n shares s) {event : Event}
    (hstep : Step (protocol k n killThreshold) s event s') (htol : Tolerated k n s event) :
    Steady k n shares s' := by
  cases hstep with
  | @fetcher t phase phase' news g _ hphase hfetch =>
    obtain ⟨hcourse, htally⟩ := h.fetch hsplit hn hphase hfetch htol
    have hworld : (∀ j, Sized (shares.getD j default) (g.world j)) ∧
        ∀ j, (g.world j).running = (s.group.world j).running := by
      obtain hworld | ⟨-, i, talk, progress, htalk⟩ := hfetch.world_cases
      · rw [hworld]
        exact ⟨h.holders, fun _ => rfl⟩
      · exact ⟨PipeTalk.sized htalk h.holders, PipeTalk.running htalk⟩
    obtain ⟨hsized, hrun⟩ := hworld
    refine ⟨hsized, fun i hi => ?_, fun i mark hm => ?_, fun u => ?_⟩
    · change i ∈ g.tally.compromised at hi
      rw [htally] at hi
      exact (hrun i).trans (h.recorded i hi)
    · exact (hrun i).trans (h.marking i mark hm)
    · show OnCourse k n shares g.world (Function.update s.fetchers t phase' u)
      by_cases hu : u = t
      · subst hu
        rwa [Function.update_self]
      · rw [Function.update_of_ne hu]
        exact (h.fetchers u).mono fun j hj => (hrun j).symm.trans hj
  | monitor _ hmonitor => exact h.monitor hmonitor
  | @serve i _ =>
    refine h.setHolder (h.holders i).serve fun hrun => ?_
    unfold Holder.serve at hrun
    split at hrun
    · split at hrun
      · exact hrun
      · exact hrun
      · cases hrun
    · exact hrun
    · exact hrun
  | @wipe i => exact h.setHolder (h.holders i).wipe id
  | @kill i => exact h.setHolder (h.holders i).exit nofun
  | @leave i => exact h.setHolder (h.holders i).leave id
  | @die i => exact h.setHolder (h.holders i).exit nofun

/-- A call that has ended has returned. -/
theorem Steady.returned (h : Steady k n shares s) {t : ℕ} (hended : (s.fetchers t).Ended) :
    ∃ v, s.fetchers t = .returned v := by
  have hcourse := h.fetchers t
  cases hphase : s.fetchers t with
  | returned v => exact ⟨v, rfl⟩
  | raised e =>
    rw [hphase] at hcourse
    exact hcourse.elim
  | _ =>
    rw [hphase] at hended
    exact hended.elim

end Steps

end DistributedTrustGroup
