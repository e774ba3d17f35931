/-
The tally of compromised holders under concurrent reports.

The monitor and any number of calls of `fetch` may be in `_on_holder_compromised` at the
same time, for the same holder or for different ones, and no lock keeps their steps
apart.  `CompromiseReports.Step` lets each of them begin a report whenever it likes and
take it one check, one addition, one comparison at a time.

* `tallied_of_run`: the set never counts a holder twice; once no report is in progress,
  `SIGKILL` has been sent exactly when the threshold has been reached.
* `DistributedTrustGroup.exists_reports` and `NetworkTrustGroup.exists_reports`: both
  trust groups are such systems.
-/
import Mathlib
import VStorage.DistributedTrustGroup
import VStorage.NetworkTrustGroup

/-- `max(1, k - 1)`. -/
def defaultKillThreshold (k : ℕ) : ℤ := max 1 ((k : ℤ) - 1)

namespace CompromiseReports

/-! ### Reports -/

/-- The tally, and for every thread the report it is in, if any. -/
structure State where
  tally : Tally
  reports : Owner → Option (ℕ × Mark)

def start : State := ⟨.new, fun _ => none⟩

inductive Event
  | report (who : Owner) (index : ℕ)
  | mark (who : Owner)
  | finish (who : Owner)

/-- Thread `who` has moved. -/
def State.set (s : State) (who : Owner) (tally : Tally) (report : Option (ℕ × Mark)) : State :=
  ⟨tally, Function.update s.reports who report⟩

@[simp] theorem State.set_self (s : State) (who : Owner) (tally : Tally)
    (report : Option (ℕ × Mark)) : (s.set who tally report).reports who = report :=
  Function.update_self ..

theorem State.set_of_ne (s : State) {who v : Owner} (hv : v ≠ who) (tally : Tally)
    (report : Option (ℕ × Mark)) : (s.set who tally report).reports v = s.reports v :=
  Function.update_of_ne hv ..

/-- One step of one thread. -/
inductive Step (killThreshold : ℤ) : State → Event → State → Prop
  | report {s : State} {w : Owner} {i : ℕ} : s.reports w = none →
      Step killThreshold s (.report w i) (s.set w s.tally (some (i, .check)))
  | mark {s : State} {w : Owner} {i : ℕ} {mark : Mark} :
      s.reports w = some (i, mark) → mark ≠ .done →
      Step killThreshold s (.mark w)
        (s.set w (mark.step killThreshold i s.tally).1
          (some (i, (mark.step killThreshold i s.tally).2)))
  | finish {s : State} {w : Owner} {i : ℕ} : s.reports w = some (i, .done) →
      Step killThreshold s (.finish w) (s.set w s.tally none)

/-- The holders that have been reported. -/
def reported : List Event → Finset ℕ
  | [] => ∅
  | .report _ index :: events => insert index (reported events)
  | _ :: events => reported events

theorem reported_append (events events' : List Event) :
    reported (events ++ events') = reported events ∪ reported events' := by
  induction events with
  | nil => simp [reported]
  | cons event events ih =>
    cases event with
    | report who index => simp only [List.cons_append, reported, ih, Finset.insert_union]
    | mark who => exact ih
    | finish who => exact ih

/-- No report is in progress. -/
def State.Quiet (s : State) : Prop := ∀ who, s.reports who = none

/-- The threshold has been reached. -/
def Reached (killThreshold : ℤ) (tally : Tally) : Prop :=
  0 < killThreshold ∧ killThreshold ≤ tally.compromised.card

theorem Reached.mono {killThreshold : ℤ} {tally tally' : Tally} (h : Reached killThreshold tally)
    (hsub : tally.compromised ⊆ tally'.compromised) : Reached killThreshold tally' := by
  have hcard := Finset.card_le_card hsub
  exact ⟨h.1, h.2.trans (by exact_mod_cast hcard)⟩

/-- A thread is in a report, at one of these places. -/
def In (places : List Mark) : Option (ℕ × Mark) → Prop
  | none => False
  | some (_, mark) => mark ∈ places

@[simp] theorem in_some {places : List Mark} {index : ℕ} {mark : Mark} :
    In places (some (index, mark)) ↔ mark ∈ places := Iff.rfl

theorem In.mono {places places' : List Mark} (hsub : places ⊆ places')
    {report : Option (ℕ × Mark)} (h : In places report) : In places' report := by
  cases report with
  | none => exact h
  | some report => exact hsub h

/-- A thread is in a report of this holder, and has not added it yet. -/
def Adding (index : ℕ) (report : Option (ℕ × Mark)) : Prop :=
  report = some (index, .check) ∨ report = some (index, .add)

/-! ### What a step keeps -/

section Steps

variable {killThreshold : ℤ} {s : State} {who : Owner}

/-- What every thread keeps when one of them moves. -/
theorem forall_reports {P Q : Option (ℕ × Mark) → Prop} {report : Option (ℕ × Mark)}
    {tally : Tally} (h : ∀ v, P (s.reports v)) (hmono : ∀ r, P r → Q r) (hself : Q report)
    (v : Owner) : Q ((s.set who tally report).reports v) := by
  by_cases hv : v = who
  · subst hv
    rwa [State.set_self]
  · rw [State.set_of_ne _ hv]
    exact hmono _ (h v)

/-- Somebody is still there, if whoever moves is. -/
theorem exists_report {P : Option (ℕ × Mark) → Prop} {report : Option (ℕ × Mark)} {tally : Tally}
    (h : ∃ v, P (s.reports v)) (hself : P (s.reports who) → P report) :
    ∃ v, P ((s.set who tally report).reports v) := by
  obtain ⟨v, hv⟩ := h
  by_cases hvw : v = who
  · subst hvw
    exact ⟨v, by rw [State.set_self]; exact hself hv⟩
  · exact ⟨v, by rwa [State.set_of_ne _ hvw]⟩

theorem exists_self {P : Option (ℕ × Mark) → Prop} {report : Option (ℕ × Mark)} {tally : Tally}
    (h : P report) : ∃ v, P ((s.set who tally report).reports v) :=
  ⟨who, by rwa [State.set_self]⟩

/-- What a thread knows in a report: which holder it names, that it has added it, that
there is a threshold, and that it has been reached. -/
def Sound (killThreshold : ℤ) (events : List Event) (tally : Tally) :
    Option (ℕ × Mark) → Prop
  | none => True
  | some (index, mark) => index ∈ reported events ∧
      (mark ≠ .check → mark ≠ .add → index ∈ tally.compromised) ∧
      (mark = .compare → 0 < killThreshold) ∧
      (mark ∈ [Mark.trigger, .kill] → Reached killThreshold tally)

theorem Sound.mono {events events' : List Event} {tally tally' : Tally}
    (hreported : reported events ⊆ reported events')
    (hsub : tally.compromised ⊆ tally'.compromised) (report : Option (ℕ × Mark))
    (h : Sound killThreshold events tally report) :
    Sound killThreshold events' tally' report := by
  cases report with
  | none => trivial
  | some report =>
    obtain ⟨hin, hadded, hpos, hreached⟩ := h
    exact ⟨hreported hin, fun hc ha => hsub (hadded hc ha), hpos,
      fun hm => (hreached hm).mono hsub⟩

/-- The invariant.  A holder that was reported and is not in the set yet is about to be
added, and a threshold that has been reached is being acted on. -/
structure Inv (killThreshold : ℤ) (events : List Event) (s : State) : Prop where
  subset : s.tally.compromised ⊆ reported events
  sound : ∀ who, Sound killThreshold events s.tally (s.reports who)
  missing : ∀ index ∈ reported events, index ∈ s.tally.compromised ∨
    ∃ who, Adding index (s.reports who)
  killed : s.tally.killed = true → Reached killThreshold s.tally
  triggered : s.tally.killTriggered = true →
    s.tally.killed = true ∨ ∃ who, In [.kill] (s.reports who)
  due : Reached killThreshold s.tally → s.tally.killed = true ∨
    ∃ who, In [.guard, .compare, .trigger, .kill] (s.reports who)

theorem inv_start (killThreshold : ℤ) : Inv killThreshold [] start := by
  refine ⟨Finset.empty_subset _, fun _ => trivial, fun _ h => ?_, nofun, nofun, fun h => ?_⟩
  · exact absurd h (Finset.notMem_empty _)
  · obtain ⟨hpos, hle⟩ := h
    have hcard : (start.tally.compromised.card : ℤ) = 0 := rfl
    omega

variable {events : List Event}

theorem Inv.report (h : Inv killThreshold events s) (hfree : s.reports who = none) (index : ℕ) :
    Inv killThreshold (events ++ [.report who index])
      (s.set who s.tally (some (index, .check))) := by
  have hreported : reported (events ++ [.report who index]) = insert index (reported events) := by
    rw [reported_append, Finset.union_comm]
    rfl
  have hgrow : reported events ⊆ reported (events ++ [.report who index]) :=
    hreported ▸ Finset.subset_insert index _
  have hout : ∀ places, ¬ In places (s.reports who) := by
    rw [hfree]
    exact fun _ => id
  -- the new report counts as an addition to come
  refine ⟨h.subset.trans hgrow, forall_reports h.sound (Sound.mono hgrow subset_rfl) ?_,
    fun i hi => ?_, h.killed, fun ht => ?_, fun hr => ?_⟩
  · exact ⟨hreported ▸ Finset.mem_insert_self index _, fun hc => absurd rfl hc, nofun, by simp⟩
  · rw [hreported, Finset.mem_insert] at hi
    rcases hi with rfl | hi
    · exact Or.inr (exists_self (Or.inl rfl))
    · refine (h.missing i hi).imp_right fun hv => exists_report hv fun hw => ?_
      rw [hfree] at hw
      exact hw.elim nofun nofun
  · exact (h.triggered ht).imp_right fun hv => exists_report hv fun hw => absurd hw (hout _)
  · exact (h.due hr).imp_right fun hv => exists_report hv fun hw => absurd hw (hout _)

theorem reported_mark (events : List Event) (who : Owner) :
    reported (events ++ [.mark who]) = reported events := by
  rw [reported_append]
  exact Finset.union_empty _

theorem reported_finish (events : List Event) (who : Owner) :
    reported (events ++ [.finish who]) = reported events := by
  rw [reported_append]
  exact Finset.union_empty _

theorem Inv.finish (h : Inv killThreshold events s) {index : ℕ}
    (hat : s.reports who = some (index, .done)) :
    Inv killThreshold (events ++ [.finish who]) (s.set who s.tally none) := by
  -- a report that is done is at none of the places that matter
  have hout : ∀ places, .done ∉ places → ¬ In places (s.reports who) := by
    rw [hat]
    exact fun _ => id
  have hsame := reported_finish events who
  refine ⟨hsame ▸ h.subset, forall_reports h.sound (Sound.mono hsame.ge subset_rfl) trivial,
    fun i hi => ?_, h.killed, fun ht => ?_, fun hr => ?_⟩
  · refine (h.missing i (hsame ▸ hi)).imp_right fun hv => exists_report hv fun hw => ?_
    rw [hat] at hw
    exact hw.elim nofun nofun
  · exact (h.triggered ht).imp_right fun hv =>
      exists_report hv fun hw => absurd hw (hout _ (by decide))
  · exact (h.due hr).imp_right fun hv =>
      exists_report hv fun hw => absurd hw (hout _ (by decide))

/-- A step inside a report.  The tally grows by the holder that is named, if at all, and
whoever leaves a place that matters has seen to it. -/
theorem Inv.move (h : Inv killThreshold events s) {index : ℕ} {mark mark' : Mark} {tally : Tally}
    (hat : s.reports who = some (index, mark)) (hsub : s.tally.compromised ⊆ tally.compromised)
    (hadd : tally.compromised ⊆ insert index s.tally.compromised)
    (hmine : mark' ≠ .check → mark' ≠ .add → index ∈ tally.compromised)
    (hpos : mark' = .compare → 0 < killThreshold)
    (hfiring : mark' ∈ [Mark.trigger, .kill] → Reached killThreshold tally)
    (hkilled : tally.killed = true → Reached killThreshold tally)
    (htriggered : tally.killTriggered = true → tally.killed = true ∨
      ∃ who', In [.kill] ((s.set who tally (some (index, mark'))).reports who'))
    (hdue : Reached killThreshold tally → tally.killed = true ∨
      ∃ who', In [.guard, .compare, .trigger, .kill]
        ((s.set who tally (some (index, mark'))).reports who')) :
    Inv killThreshold (events ++ [.mark who]) (s.set who tally (some (index, mark'))) := by
  have hsame := reported_mark events who
  have hsound := h.sound who
  rw [hat] at hsound
  refine ⟨?_, forall_reports h.sound (Sound.mono hsame.ge hsub)
    ⟨hsame ▸ hsound.1, hmine, hpos, hfiring⟩, fun i hi => ?_, hkilled, htriggered, hdue⟩
  · rw [hsame]
    exact hadd.trans (Finset.insert_subset hsound.1 h.subset)
  · rcases h.missing i (hsame ▸ hi) with hin | hv
    · exact Or.inl (hsub hin)
    by_cases hi' : i ∈ tally.compromised
    · exact Or.inl hi'
    · refine Or.inr (exists_report hv fun hw => ?_)
      rw [hat] at hw
      have hindex : i = index := by
        rcases hw with hw | hw <;> exact (Prod.mk.inj (Option.some.inj hw)).1.symm
      subst hindex
      -- whoever leaves the places before the addition has made it
      by_contra hnot
      refine hi' (hmine ?_ ?_)
      · rintro rfl
        exact hnot (Or.inl rfl)
      · rintro rfl
        exact hnot (Or.inr rfl)

theorem Inv.mark (h : Inv killThreshold events s) {index : ℕ} {mark : Mark}
    (hat : s.reports who = some (index, mark)) (hdone : mark ≠ .done) :
    Inv killThreshold (events ++ [.mark who])
      (s.set who (mark.step killThreshold index s.tally).1
        (some (index, (mark.step killThreshold index s.tally).2))) := by
  have hsound := h.sound who
  rw [hat] at hsound
  obtain ⟨-, hadded, hpos, hreached⟩ := hsound
  -- the other threads that were acting on the threshold still are
  have hothers : ∀ {places : List Mark} {tally : Tally} {report : Option (ℕ × Mark)},
      (∃ v, In places (s.reports v)) → mark ∉ places →
        ∃ v, In places ((s.set who tally report).reports v) := by
    intro places tally report hv hout
    refine exists_report hv fun hw => absurd ?_ hout
    rwa [hat] at hw
  cases mark with
  | check =>
    refine h.move hat subset_rfl (Finset.subset_insert ..) (fun _ hadd => ?_) (fun hm => ?_)
      (fun hm => ?_) h.killed (fun ht => (h.triggered ht).imp_right fun hv => hothers hv (by decide))
      fun hr => (h.due hr).imp_right fun hv => hothers hv (by decide)
    · by_contra hnot
      exact hadd (if_neg hnot)
    · simp only [Mark.step] at hm
      split at hm <;> simp at hm
    · simp only [Mark.step] at hm
      split at hm <;> simp at hm
  -- the set grows, and the report goes on to the threshold
  | add =>
    exact h.move hat (Finset.subset_insert ..) subset_rfl
      (fun _ _ => Finset.mem_insert_self ..) nofun (by simp [Mark.step])
      (fun hk => (h.killed hk).mono (Finset.subset_insert ..))
      (fun ht => (h.triggered ht).imp_right fun hv => hothers hv (by decide))
      fun _ => Or.inr (exists_self (by simp [Mark.step]))
  | guard =>
    refine h.move hat subset_rfl (Finset.subset_insert ..) (fun _ _ => hadded nofun nofun)
      (fun hm => ?_) (fun hm => ?_) h.killed
      (fun ht => (h.triggered ht).imp_right fun hv => hothers hv (by decide)) fun hr => ?_
    · simp only [Mark.step] at hm
      split at hm
      · exact nomatch hm
      · rename_i hnot
        exact not_le.mp fun hle => hnot (Or.inr hle)
    · simp only [Mark.step] at hm
      split at hm <;> simp at hm
    · by_cases ht : s.tally.killTriggered = true
      · -- somebody else is about to send the signal
        refine (h.triggered ht).imp_right fun hv => ?_
        obtain ⟨v, hv⟩ := hothers hv (by decide)
        exact ⟨v, hv.mono (by decide)⟩
      · have hpos : 0 < killThreshold := hr.1
        refine Or.inr (exists_self ?_)
        simp only [Mark.step]
        rw [if_neg (by simp [ht, hpos])]
        simp
  -- the threshold is positive here, so the comparison decides
  | compare =>
    refine h.move hat subset_rfl (Finset.subset_insert ..) (fun _ _ => hadded nofun nofun)
      (fun hm => ?_) (fun hm => ?_) h.killed
      (fun ht => (h.triggered ht).imp_right fun hv => hothers hv (by decide)) fun hr => ?_
    · simp only [Mark.step] at hm
      split at hm <;> exact nomatch hm
    · simp only [Mark.step] at hm
      split at hm
      · rename_i hle
        exact ⟨hpos rfl, hle⟩
      · simp at hm
    · have hle : (s.tally.compromised.card : ℤ) ≥ killThreshold := hr.2
      refine Or.inr (exists_self ?_)
      simp only [Mark.step]
      rw [if_pos hle]
      simp
  | trigger =>
    exact h.move hat subset_rfl (Finset.subset_insert ..) (fun _ _ => hadded nofun nofun) nofun
      (fun _ => hreached (by simp)) h.killed (fun _ => Or.inr (exists_self (by simp [Mark.step])))
      fun _ => Or.inr (exists_self (by simp [Mark.step]))
  | kill =>
    exact h.move hat subset_rfl (Finset.subset_insert ..) (fun _ _ => hadded nofun nofun) nofun
      (by simp [Mark.step]) (fun _ => hreached (by simp)) (fun _ => Or.inl rfl)
      fun _ => Or.inl rfl
  | done => exact absurd rfl hdone

end Steps

theorem inv_of_run {killThreshold : ℤ} {events : List Event} {s : State}
    (hrun : Run (Step killThreshold) start events s) : Inv killThreshold events s := by
  refine hrun.history (inv_start killThreshold) fun h hstep => ?_
  -- the invariant speaks of the reports made so far, so by induction on the history
  cases hstep with
  | report hfree => exact h.report hfree _
  | mark hat hdone => exact h.mark hat hdone
  | finish hat => exact h.finish hat

/-- When no report is in progress, every holder that was reported is in the set. -/
theorem Inv.compromised_eq {killThreshold : ℤ} {events : List Event} {s : State}
    (h : Inv killThreshold events s) (hquiet : s.Quiet) :
    s.tally.compromised = reported events := by
  refine h.subset.antisymm fun index hindex => ?_
  rcases h.missing index hindex with hin | ⟨who, hwho⟩
  · exact hin
  · rw [hquiet who] at hwho
    exact hwho.elim nofun nofun

/-- When no report is in progress, the signal has been sent exactly if it is due. -/
theorem Inv.killed_iff {killThreshold : ℤ} {events : List Event} {s : State}
    (h : Inv killThreshold events s) (hquiet : s.Quiet) :
    s.tally.killed = true ↔ Reached killThreshold s.tally := by
  refine ⟨h.killed, fun hreached => ?_⟩
  rcases h.due hreached with hkilled | ⟨who, hwho⟩
  · exact hkilled
  · rw [hquiet who] at hwho
    exact hwho.elim

/-- **The tally.**  Whatever the order of the reports and of their steps: the count never
exceeds the number of holders reported; once no report is in progress it is that number,
and the signal has been sent exactly when there is a threshold and it has been reached;
and with the default threshold a process that is still alive then has fewer than `k`
holders reported. -/
theorem tallied_of_run {secret : Bytes} {k n : ℕ} {urandom : ℕ → ℕ → UInt8}
    {shares : List (ℤ × Bytes)} (hsplit : splitSecret secret k n urandom = .ok shares)
    {killThreshold : ℤ} {events : List Event} {s : State}
    (hrun : Run (Step killThreshold) start events s) :
    s.tally.compromised ⊆ reported events ∧
      s.tally.compromised.card ≤ (reported events).card ∧
      (s.Quiet → s.tally.compromised = reported events ∧
        (s.tally.killed = true ↔
          0 < killThreshold ∧ killThreshold ≤ (reported events).card)) ∧
      (killThreshold = defaultKillThreshold k → s.Quiet → s.tally.killed = false →
        (reported events).card < k) := by
  have h := inv_of_run hrun
  -- a group exists only if at least one share is needed
  have hkilled : s.Quiet → (s.tally.killed = true ↔
      0 < killThreshold ∧ killThreshold ≤ (reported events).card) := by
    intro hquiet
    rw [h.killed_iff hquiet, Reached, h.compromised_eq hquiet]
  refine ⟨h.subset, Finset.card_le_card h.subset,
    fun hquiet => ⟨h.compromised_eq hquiet, hkilled hquiet⟩, fun hdefault hquiet halive => ?_⟩
  have hk := (threshold_of_splitSecret hsplit).1
  have hbelow : ¬ (0 < killThreshold ∧ killThreshold ≤ (reported events).card) := by
    rw [← hkilled hquiet, halive]
    decide
  rw [defaultKillThreshold] at hdefault
  omega

/-- The monitor reports one of two holders of which two are needed. -/
theorem tallied_of_run_two :
    ∃ events s, Run (Step (defaultKillThreshold 2)) start events s ∧ s.Quiet ∧
      s.tally.compromised = {0} ∧ s.tally.killed = true ∧
      (s.tally.killed = false → (reported events).card < 2) := by
  have hsplit : splitSecret [5] 2 2 (fun _ _ => 0) = .ok [(1, [5]), (2, [5])] := by
    decide +kernel
  obtain ⟨events, s, hrun, hquiet, hreported⟩ : ∃ events s,
      Run (Step (defaultKillThreshold 2)) start events s ∧ s.Quiet ∧ reported events = {0} := by
    refine ⟨_, _, Run.nil
      |>.snoc (.report (w := .monitor) (i := 0) rfl)
      |>.snoc (.mark (w := .monitor) rfl (show Mark.check ≠ .done by decide))
      |>.snoc (.mark (w := .monitor) rfl (show Mark.add ≠ .done by decide))
      |>.snoc (.mark (w := .monitor) rfl (show Mark.guard ≠ .done by decide))
      |>.snoc (.mark (w := .monitor) rfl (show Mark.compare ≠ .done by decide))
      |>.snoc (.mark (w := .monitor) rfl (show Mark.trigger ≠ .done by decide))
      |>.snoc (.mark (w := .monitor) rfl (show Mark.kill ≠ .done by decide))
      |>.snoc (.finish (w := .monitor) rfl), ?_, rfl⟩
    rintro (t | _) <;> rfl
  obtain ⟨-, -, hall, hdefault⟩ := tallied_of_run hsplit hrun
  obtain ⟨hcompromised, hkilled⟩ := hall hquiet
  refine ⟨events, s, hrun, hquiet, hcompromised.trans hreported, hkilled.mpr ?_,
    hdefault rfl hquiet⟩
  rw [hreported]
  exact ⟨by decide, by decide⟩

/-! ### The trust groups report like this -/

/-- What one thread does to the tally and to its own report in a step. -/
inductive Moves (killThreshold : ℤ) :
    Tally → Option (ℕ × Mark) → Tally → Option (ℕ × Mark) → Prop
  | elsewhere {tally : Tally} {report : Option (ℕ × Mark)} :
      Moves killThreshold tally report tally report
  | report {tally : Tally} {index : ℕ} :
      Moves killThreshold tally none tally (some (index, .check))
  | mark {tally : Tally} {index : ℕ} {mark : Mark} : mark ≠ .done →
      Moves killThreshold tally (some (index, mark)) (mark.step killThreshold index tally).1
        (some (index, (mark.step killThreshold index tally).2))
  | finish {tally : Tally} {index : ℕ} :
      Moves killThreshold tally (some (index, .done)) tally none

theorem Moves.step {killThreshold : ℤ} {s : State} {who : Owner} {tally : Tally}
    {report : Option (ℕ × Mark)} (h : Moves killThreshold s.tally (s.reports who) tally report) :
    s.set who tally report = s ∨
      ∃ event, Step killThreshold s event (s.set who tally report) := by
  generalize hat : s.reports who = before at h
  cases h with
  | elsewhere =>
    rw [← hat, State.set, Function.update_eq_self]
    exact Or.inl rfl
  | report => exact Or.inr ⟨_, .report hat⟩
  | mark hdone => exact Or.inr ⟨_, .mark hat hdone⟩
  | finish => exact Or.inr ⟨_, .finish hat⟩

/-- The report a call of `fetch` is in. -/
def ofPhase {τ : Type} : FetchPhase τ → Option (ℕ × Mark)
  | .marking index mark => some (index, mark)
  | _ => none

theorem moves_of_fetchStep {W τ : Type} {p : Protocol W τ} {t : ℕ} {g g' : TrustGroup W}
    {phase phase' : FetchPhase τ} {news : News} (h : FetchStep p t g phase news g' phase') :
    Moves p.killThreshold g.tally (ofPhase phase) g'.tally (ofPhase phase') := by
  cases h with
  | fail => exact .report
  | mark hdone => exact .mark hdone
  | marked => exact .finish
  | _ => exact .elsewhere

/-- The reports in progress in a trust group. -/
def threads {τ : Type} (fetchers : ℕ → FetchPhase τ) (monitor : Option (ℕ × Mark)) :
    Owner → Option (ℕ × Mark)
  | .fetcher t => ofPhase (fetchers t)
  | .monitor => monitor

theorem threads_fetcher {τ : Type} (fetchers : ℕ → FetchPhase τ) (monitor : Option (ℕ × Mark))
    (t : ℕ) (phase : FetchPhase τ) :
    threads (Function.update fetchers t phase) monitor
      = Function.update (threads fetchers monitor) (.fetcher t) (ofPhase phase) := by
  funext who
  rcases who with u | _
  · rw [threads]
    by_cases hu : u = t
    · subst hu
      rw [Function.update_self, Function.update_self]
    · rw [Function.update_of_ne hu, Function.update_of_ne fun h => hu (Owner.fetcher.inj h), threads]
  · rfl

theorem threads_monitor {τ : Type} (fetchers : ℕ → FetchPhase τ)
    (monitor monitor' : Option (ℕ × Mark)) :
    threads fetchers monitor' = Function.update (threads fetchers monitor) .monitor monitor' := by
  funext who
  cases who <;> rfl

/-- A step of a trust group in which one thread moves. -/
theorem step_of_moves {killThreshold : ℤ} {s t : State} (who : Owner) {tally : Tally}
    {report : Option (ℕ × Mark)} (h : Moves killThreshold s.tally (s.reports who) tally report)
    (ht : t = ⟨tally, Function.update s.reports who report⟩) :
    t = s ∨ ∃ event, Step killThreshold s event t := by
  rw [ht]
  exact h.step

end CompromiseReports

namespace DistributedTrustGroup

open CompromiseReports (ofPhase threads Moves)

def ofMonitor : Monitor → Option (ℕ × Mark)
  | .marking index mark => some (index, mark)
  | .testing _ => none

/-- What shows of a group are its tally and the reports in progress. -/
def reportsOf (s : State) : CompromiseReports.State :=
  ⟨s.group.tally, threads s.fetchers (ofMonitor s.monitor)⟩

theorem moves_of_monitorStep {n : ℕ} {killThreshold : ℤ} {g : TrustGroup (ℕ → Holder)}
    {monitor monitor' : Monitor} {tally : Tally}
    (h : MonitorStep n killThreshold g monitor tally monitor') :
    Moves killThreshold g.tally (ofMonitor monitor) tally (ofMonitor monitor') := by
  cases h with
  | found => exact .report
  | mark hdone => exact .mark hdone
  | marked => exact .finish
  | _ => exact .elsewhere

/-- **Reports of local holders.** -/
theorem exists_reports {p : Protocol (ℕ → Holder) Talk} {shares : List (ℤ × Bytes)}
    {events : List Event} {s : State} (hrun : Run (Step p) (start shares) events s) :
    ∃ reports, Run (CompromiseReports.Step p.killThreshold) CompromiseReports.start reports
      (reportsOf s) := by
  have hstart : reportsOf (start shares) = CompromiseReports.start :=
    congrArg (CompromiseReports.State.mk .new) (funext fun who => by cases who <;> rfl)
  rw [← hstart]
  refine hrun.simulate reportsOf fun {s event s'} hstep => ?_
  cases hstep with
  | @fetcher t phase phase' news g _ hphase hfetch =>
    have hmoves := CompromiseReports.moves_of_fetchStep hfetch
    rw [← hphase] at hmoves
    exact CompromiseReports.step_of_moves (s := reportsOf s) (.fetcher t) hmoves
      (congrArg (CompromiseReports.State.mk g.tally) (CompromiseReports.threads_fetcher ..))
  | @monitor tally monitor _ hmonitor =>
    exact CompromiseReports.step_of_moves (s := reportsOf s) .monitor (moves_of_monitorStep hmonitor)
      (congrArg (CompromiseReports.State.mk tally) (CompromiseReports.threads_monitor ..))
  | _ => exact Or.inl rfl

end DistributedTrustGroup

namespace NetworkTrustGroup

open CompromiseReports (ofPhase threads Moves)

def ofMonitor : Monitor → Option (ℕ × Mark)
  | .marking index mark => some (index, mark)
  | _ => none

def reportsOf (s : State) : CompromiseReports.State :=
  ⟨s.group.tally, threads s.fetchers (ofMonitor s.monitor)⟩

theorem moves_of_monitorStep {n depth : ℕ} {killThreshold : ℤ} {g g' : TrustGroup (ℕ → Sock)}
    {monitor monitor' : Monitor} (h : MonitorStep n killThreshold depth g monitor g' monitor') :
    Moves killThreshold g.tally (ofMonitor monitor) g'.tally (ofMonitor monitor') := by
  cases h with
  | dead => exact .report
  | mark hdone => exact .mark hdone
  | marked => exact .finish
  | _ => exact .elsewhere

/-- **Reports of holders behind sockets.** -/
theorem exists_reports {shares : List (ℤ × Bytes)} {p : Protocol (ℕ → Sock) Talk} {depth : ℕ}
    {events : List Event} {s : State} (hrun : Run (Step shares p depth) start events s) :
    ∃ reports, Run (CompromiseReports.Step p.killThreshold) CompromiseReports.start reports
      (reportsOf s) := by
  have hstart : reportsOf start = CompromiseReports.start :=
    congrArg (CompromiseReports.State.mk .new) (funext fun who => by cases who <;> rfl)
  rw [← hstart]
  refine hrun.simulate reportsOf fun {s event s'} hstep => ?_
  cases hstep with
  | @fetcher t phase phase' news g _ hphase hfetch =>
    have hmoves := CompromiseReports.moves_of_fetchStep hfetch
    rw [← hphase] at hmoves
    exact CompromiseReports.step_of_moves (s := reportsOf s) (.fetcher t) hmoves
      (congrArg (CompromiseReports.State.mk g.tally) (CompromiseReports.threads_fetcher ..))
  | @monitor g monitor _ hmonitor =>
    exact CompromiseReports.step_of_moves (s := reportsOf s) .monitor (moves_of_monitorStep hmonitor)
      (congrArg (CompromiseReports.State.mk g.tally) (CompromiseReports.threads_monitor ..))
  | _ => exact Or.inl rfl

end NetworkTrustGroup
