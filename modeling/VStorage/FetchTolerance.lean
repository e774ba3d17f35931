/-
How many lost holders a fetch tolerates.

Both groups pick the first `k` indices that are not recorded as compromised and ask
these only.  A loss that the monitor has not recorded yet is found by asking, and ends
the call, however many other holders there are:

* `returned_iff_picksAnswer`: a call that ends, ends by returning the secret exactly
  when the `k` holders it picked have answered, and when they have, it ends.
* `returned_of_tolerated`: while the holders that are asked live, every call of the local
  group that ends has returned the secret.
* `raised_with_four_of_five`: one loss out of five, not recorded yet, is enough for a
  call that needs three to raise.
-/
import Mathlib
import VStorage.HolderLoss
import VStorage.NetworkTrustGroup

open DistributedTrustGroup (ReadsIntact)

/-- **Tolerance.**  In every run of either group, a call that has ended has returned the
secret exactly when it found `k` holders not recorded as compromised and the first `k`
of them have answered; and when they have, its own steps can only lead to that. -/
theorem returned_iff_picksAnswer {secret : Bytes} {k n : ℕ} {urandom : ℕ → ℕ → UInt8}
    {shares : List (ℤ × Bytes)} (hsplit : splitSecret secret k n urandom = .ok shares)
    (hn : n ≤ 255) (killThreshold : ℤ) (t : ℕ) :
    (∀ events s, Run (Guarded (DistributedTrustGroup.Step
          (DistributedTrustGroup.protocol k n killThreshold)) ReadsIntact)
        (DistributedTrustGroup.start shares) events s →
      DecidedByPicks (DistributedTrustGroup.protocol k n killThreshold) secret t
        (DistributedTrustGroup.notes t events) s.group (s.fetchers t)) ∧
    ∀ depth events s, Run (NetworkTrustGroup.Step shares
          (NetworkTrustGroup.protocol k n killThreshold depth) depth)
        NetworkTrustGroup.start events s →
      DecidedByPicks (NetworkTrustGroup.protocol k n killThreshold depth) secret t
        (NetworkTrustGroup.notes t events) s.group (s.fetchers t) := by
  refine ⟨fun events s hrun => ?_, fun depth events s hrun => ?_⟩
  · exact ((DistributedTrustGroup.inv_of_run hrun).fetchers t).decidedByPicks hsplit hn t s.group
  · exact ((NetworkTrustGroup.inv_of_run hsplit hrun).observed t).decidedByPicks hsplit hn t
      s.group

/-- **While the holders that are asked live**, and enough of them do, a call of the local
group that has ended has returned the secret. -/
theorem returned_of_tolerated {secret : Bytes} {k n : ℕ} {urandom : ℕ → ℕ → UInt8}
    {shares : List (ℤ × Bytes)} (hsplit : splitSecret secret k n urandom = .ok shares)
    (hn : n ≤ 255) {killThreshold : ℤ} {events : List DistributedTrustGroup.Event}
    {s : DistributedTrustGroup.State}
    (hrun : Run (Guarded (DistributedTrustGroup.Step
        (DistributedTrustGroup.protocol k n killThreshold))
      fun s event => ReadsIntact s event ∧ DistributedTrustGroup.Tolerated k n s event)
      (DistributedTrustGroup.start shares) events s) {t : ℕ} (hended : (s.fetchers t).Ended) :
    s.fetchers t = .returned secret := by
  have hsteady : DistributedTrustGroup.Steady k n shares s :=
    hrun.invariant (DistributedTrustGroup.steady_start k n shares)
      fun h hstep => h.step hsplit hn hstep.1 hstep.2.2
  obtain ⟨v, hv⟩ := hsteady.returned hended
  have hintact : Run (Guarded (DistributedTrustGroup.Step
      (DistributedTrustGroup.protocol k n killThreshold)) ReadsIntact)
      (DistributedTrustGroup.start shares) events s := hrun.mono fun h => ⟨h.1, h.2.1⟩
  have hobs := (DistributedTrustGroup.inv_of_run hintact).fetchers t
  rw [hv] at hobs ⊢
  rw [hobs.eq_secret hsplit]

/-- Holders copy intact pages, and the first thread makes one call. -/
def OneCall (s : DistributedTrustGroup.State) (event : DistributedTrustGroup.Event) : Prop :=
  ReadsIntact s event ∧ ∀ t news, event = .fetcher t news → t = 0 ∧ ¬ (s.fetchers t).Ended

/-- The second of two holders is killed by its watchdog, and a call that needs one returns. -/
theorem run_one_of_two (killThreshold : ℤ) :
    ∃ events s, Run (Guarded (DistributedTrustGroup.Step
        (DistributedTrustGroup.protocol 1 2 killThreshold)) fun s event =>
          OneCall s event ∧ DistributedTrustGroup.Tolerated 1 2 s event)
        (DistributedTrustGroup.start [(1, [7]), (2, [7])]) events s ∧
      (s.group.world 1).running = false ∧ s.fetchers 0 = .returned [7] := by
  have hlive : ∀ {s : DistributedTrustGroup.State}, (s.group.world 0).running = true →
      1 ≤ ((Finset.range 2).filter fun i => (s.group.world i).running = true).card :=
    fun h => Finset.card_pos.mpr ⟨0, by simp [h]⟩
  have hother : ∀ {s : DistributedTrustGroup.State} {event : DistributedTrustGroup.Event},
      (s.group.world 0).running = true → ReadsIntact s event →
      (∀ t news, event ≠ .fetcher t news) →
      OneCall s event ∧ DistributedTrustGroup.Tolerated 1 2 s event := fun hrun hreads hnot =>
    ⟨⟨hreads, fun t news heq => absurd heq (hnot t news)⟩, hlive hrun,
      fun t news _ _ _ _ heq _ => absurd heq (hnot t news)⟩
  -- the thread asks nobody, or the first holder
  have hcall : ∀ {s : DistributedTrustGroup.State} {news : News},
      (s.group.world 0).running = true → ¬ (s.fetchers 0).Ended →
      (∀ i rest collected talk, s.fetchers 0 = .asking (i :: rest) collected talk → i = 0) →
      OneCall s (.fetcher 0 news) ∧ DistributedTrustGroup.Tolerated 1 2 s (.fetcher 0 news) := by
    intro s news hrun hended hasks
    refine ⟨⟨nofun, fun t news' heq => ?_⟩, hlive hrun,
      fun t news' i rest collected talk heq ht => ?_⟩
    · obtain ⟨rfl, -⟩ := DistributedTrustGroup.Event.fetcher.inj heq
      exact ⟨rfl, hended⟩
    · obtain ⟨rfl, -⟩ := DistributedTrustGroup.Event.fetcher.inj heq
      obtain rfl := hasks i rest collected talk ht
      cases talk with
      | toSend => exact hrun
      | sent => exact Or.inl hrun
  have hasking : ∀ {collected : List (ℤ × Bytes)} {talk : DistributedTrustGroup.Talk} (i : ℕ) rest
      collected' talk',
      FetchPhase.asking [0] collected talk = .asking (i :: rest) collected' talk' → i = 0 :=
    fun i rest _ _ h => (List.cons.inj (FetchPhase.asking.inj h).1).1.symm
  have hrun := Run.refl (Guarded (DistributedTrustGroup.Step
        (DistributedTrustGroup.protocol 1 2 killThreshold)) fun s event =>
          OneCall s event ∧ DistributedTrustGroup.Tolerated 1 2 s event)
      (DistributedTrustGroup.start [(1, [7]), (2, [7])])
    |>.snoc ⟨.wipe (i := 1) rfl rfl rfl, hother rfl nofun nofun⟩
    |>.snoc ⟨.kill (i := 1) rfl rfl, hother rfl nofun nofun⟩
    |>.snoc ⟨.leave (i := 1), hother rfl nofun nofun⟩
    |>.snoc ⟨.fetcher (t := 0) rfl rfl .call, hcall rfl id nofun⟩
    |>.snoc ⟨.fetcher (t := 0) rfl rfl (.scan (show 0 < 2 by decide)), hcall rfl id nofun⟩
    |>.snoc ⟨.fetcher (t := 0) rfl rfl (.scan (show 1 < 2 by decide)), hcall rfl id nofun⟩
    |>.snoc ⟨.fetcher (t := 0) rfl rfl (.enough (show ¬ 2 < 1 by decide)), hcall rfl id nofun⟩
    |>.snoc ⟨.fetcher (t := 0) rfl rfl (.acquire rfl), hcall rfl id nofun⟩
    |>.snoc ⟨.fetcher (t := 0) rfl rfl (.more (.send (Or.inl rfl))), hcall rfl id hasking⟩
    |>.snoc ⟨.serve (i := 0) rfl, hother rfl (DistributedTrustGroup.readsIntact_serve nofun) nofun⟩
    |>.snoc ⟨.serve (i := 0) rfl,
      hother rfl (DistributedTrustGroup.readsIntact_serve fun _ => rfl) nofun⟩
    |>.snoc ⟨.serve (i := 0) rfl, hother rfl (DistributedTrustGroup.readsIntact_serve nofun) nofun⟩
    |>.snoc ⟨.fetcher (t := 0) rfl rfl (.reply (.recv rfl)), hcall rfl id hasking⟩
    |>.snoc ⟨.fetcher (t := 0) rfl rfl .release, hcall rfl id nofun⟩
    |>.snoc ⟨.fetcher (t := 0) rfl rfl (.combine (combineShares_single 1 [7])), hcall rfl id nofun⟩
  exact ⟨_, _, hrun, rfl, rfl⟩

/-- The second of two holders is lost, which a call that needs one does not notice. -/
theorem returned_iff_picksAnswer_one_of_two :
    ∃ events s, Run (Guarded (DistributedTrustGroup.Step (DistributedTrustGroup.protocol 1 2 0))
        ReadsIntact) (DistributedTrustGroup.start [(1, [7]), (2, [7])]) events s ∧
      (s.group.world 1).running = false ∧ s.fetchers 0 = .returned [7] ∧
      (DistributedTrustGroup.notes 0 events).PicksAnswer 1 2 := by
  have hsplit : splitSecret [7] 1 2 (fun _ _ => 0) = .ok [(1, [7]), (2, [7])] := by
    decide +kernel
  obtain ⟨events, s, hrun, hlost, hreturned⟩ := run_one_of_two 0
  have hintact : Run (Guarded (DistributedTrustGroup.Step (DistributedTrustGroup.protocol 1 2 0))
      ReadsIntact) (DistributedTrustGroup.start [(1, [7]), (2, [7])]) events s :=
    hrun.mono fun h => ⟨h.1, h.2.1.1⟩
  have hdecided := (returned_iff_picksAnswer hsplit (by decide) 0 0).1 events s hintact
  have hended : (s.fetchers 0).Ended := by
    rw [hreturned]
    trivial
  exact ⟨events, s, hintact, hlost, hreturned, (hdecided.1 hended).mp hreturned⟩

/-- A call for three of five holders, made when one has been killed by its watchdog and the
monitor has not looked yet, raises; the other four go on. -/
theorem run_four_of_five (shares : List (ℤ × Bytes)) :
    ∃ events s, Run (Guarded (DistributedTrustGroup.Step (DistributedTrustGroup.protocol 3 5 2))
        OneCall) (DistributedTrustGroup.start shares) events s ∧
      (∀ i, i ≠ 0 → (s.group.world i).running = true) ∧
      s.fetchers 0 = .raised .trustGroupCompromised := by
  have hone : ∀ {s : DistributedTrustGroup.State} {news : News}, ¬ (s.fetchers 0).Ended →
      OneCall s (.fetcher 0 news) := by
    intro s news hnot
    refine ⟨nofun, fun t news' heq => ?_⟩
    obtain ⟨rfl, -⟩ := DistributedTrustGroup.Event.fetcher.inj heq
    exact ⟨rfl, hnot⟩
  have hrun := Run.refl (Guarded (DistributedTrustGroup.Step
        (DistributedTrustGroup.protocol 3 5 2)) OneCall)
      (DistributedTrustGroup.start shares)
    |>.snoc ⟨.wipe (i := 0) rfl rfl rfl, nofun, nofun⟩
    |>.snoc ⟨.kill (i := 0) rfl rfl, nofun, nofun⟩
    |>.snoc ⟨.leave (i := 0), nofun, nofun⟩
    |>.snoc ⟨.fetcher (t := 0) rfl rfl .call, hone id⟩
    |>.snoc ⟨.fetcher (t := 0) rfl rfl (.scan (by decide)), hone id⟩
    |>.snoc ⟨.fetcher (t := 0) rfl rfl (.scan (by decide)), hone id⟩
    |>.snoc ⟨.fetcher (t := 0) rfl rfl (.scan (by decide)), hone id⟩
    |>.snoc ⟨.fetcher (t := 0) rfl rfl (.scan (by decide)), hone id⟩
    |>.snoc ⟨.fetcher (t := 0) rfl rfl (.scan (by decide)), hone id⟩
    |>.snoc ⟨.fetcher (t := 0) rfl rfl (.enough (show ¬ 5 < 3 by decide)), hone id⟩
    |>.snoc ⟨.fetcher (t := 0) rfl rfl (.acquire rfl), hone id⟩
    |>.snoc ⟨.fetcher (t := 0) rfl rfl (.fail (i := 0) (.broken rfl rfl) rfl), hone id⟩
    |>.snoc ⟨.fetcher (t := 0) rfl rfl (.mark (by decide)), hone id⟩
    |>.snoc ⟨.fetcher (t := 0) rfl rfl (.mark (show Mark.add ≠ .done by decide)), hone id⟩
    |>.snoc ⟨.fetcher (t := 0) rfl rfl (.mark (show Mark.guard ≠ .done by decide)), hone id⟩
    |>.snoc ⟨.fetcher (t := 0) rfl rfl (.mark (show Mark.compare ≠ .done by decide)), hone id⟩
    |>.snoc ⟨.fetcher (t := 0) rfl rfl .marked, hone id⟩
  refine ⟨_, _, hrun, fun i hi => ?_, rfl⟩
  have hsame : ∀ (w : ℕ → Holder) (h h' h'' : Holder), Function.update (Function.update
      (Function.update w 0 h) 0 h') 0 h'' i = w i := fun w h h' h'' => by
    rw [Function.update_of_ne hi, Function.update_of_ne hi, Function.update_of_ne hi]
  exact congrArg Holder.running (hsame ..)

theorem raised_with_four_of_five :
    ∃ shares events s, splitSecret (List.replicate 32 5) 3 5 (fun _ _ => 0) = .ok shares ∧
      Run (Guarded (DistributedTrustGroup.Step (DistributedTrustGroup.protocol 3 5 2))
        ReadsIntact) (DistributedTrustGroup.start shares) events s ∧
      (∀ i, i ≠ 0 → (s.group.world i).running = true) ∧
      s.fetchers 0 = .raised .trustGroupCompromised := by
  obtain ⟨shares, hsplit⟩ : ∃ shares,
      splitSecret (List.replicate 32 5) 3 5 (fun _ _ => 0) = .ok shares :=
    ⟨_, splitSecret_eq (by decide) (by decide) (by decide) _ _⟩
  obtain ⟨events, s, hrun, halive, hraised⟩ := run_four_of_five shares
  exact ⟨shares, events, s, hsplit, hrun.mono fun h => ⟨h.1, h.2.1⟩, halive, hraised⟩
