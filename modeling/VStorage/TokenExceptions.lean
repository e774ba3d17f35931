/-
`redeem_key` of `secure_system.py`: what it raises.

The table of pending keys under its lock: tokens are issued, each issuance sweeps what has
expired, and tokens are redeemed, in any order and at any times of a clock that does not go
back.  `TimeoutError` is for a token whose time has passed, `KeyError` for one that was never
issued or is redeemed already.  But an expired token leaves the table when another is issued,
and when its own redemption fails, and from then on it cannot be told from one never issued.

* `DeskInv`: what is in the table, told by the history.
* `exact_iff`: the exception is the right one exactly when the token was redeemed, or has not
  been dropped since it expired.
* `redeem_exact_iff`: the same of all redemptions of a run.
-/
import Mathlib
import VStorage.KeyRelease
import VStorage.Runs

namespace KeyRelease

variable {Token τ : Type*}

/-! ### Histories -/

/-- A token is issued, or somebody redeems one: at what time, and what comes of it. -/
inductive Deal (Token τ : Type*)
  | issue (now : τ) (token : Token) (entry : Entry τ)
  | redeem (now : τ) (token : Token) (result : Redemption)

/-- The table, the clock, and the tokens that `secrets.token_urlsafe` has returned. -/
structure Desk (Token τ : Type*) where
  now : τ
  pending : Token → Option (Entry τ)
  drawn : List Token

def Desk.start (now : τ) : Desk Token τ := ⟨now, fun _ => none, []⟩

def WasIssued (as : List (Deal Token τ)) (token : Token) (entry : Entry τ) : Prop :=
  ∃ now, .issue now token entry ∈ as

/-- The token has been redeemed for a key. -/
def WasRedeemed (as : List (Deal Token τ)) (token : Token) : Prop :=
  ∃ now key, .redeem now token (.key key) ∈ as

theorem wasIssued_concat {as : List (Deal Token τ)} {a : Deal Token τ} {token : Token}
    {entry : Entry τ} : WasIssued (as ++ [a]) token entry ↔
      WasIssued as token entry ∨ ∃ now, a = .issue now token entry := by
  constructor
  · rintro ⟨now, hmem⟩
    rcases List.mem_append.mp hmem with hmem | hmem
    · exact Or.inl ⟨now, hmem⟩
    · exact Or.inr ⟨now, (List.mem_singleton.mp hmem).symm⟩
  · rintro (⟨now, hmem⟩ | ⟨now, rfl⟩)
    · exact ⟨now, List.mem_append_left _ hmem⟩
    · exact ⟨now, List.mem_append_right _ (List.mem_singleton_self _)⟩

theorem wasRedeemed_concat {as : List (Deal Token τ)} {a : Deal Token τ} {token : Token} :
    WasRedeemed (as ++ [a]) token ↔
      WasRedeemed as token ∨ ∃ now key, a = .redeem now token (.key key) := by
  constructor
  · rintro ⟨now, key, hmem⟩
    rcases List.mem_append.mp hmem with hmem | hmem
    · exact Or.inl ⟨now, key, hmem⟩
    · exact Or.inr ⟨now, key, (List.mem_singleton.mp hmem).symm⟩
  · rintro (⟨now, key, hmem⟩ | ⟨now, key, rfl⟩)
    · exact ⟨now, key, List.mem_append_left _ hmem⟩
    · exact ⟨now, key, List.mem_append_right _ (List.mem_singleton_self _)⟩

theorem wasRedeemed_issue {as : List (Deal Token τ)} {now : τ} {token other : Token} {entry : Entry τ} :
    WasRedeemed (as ++ [Deal.issue now token entry]) other ↔ WasRedeemed as other := by
  rw [wasRedeemed_concat]
  refine or_iff_left ?_
  rintro ⟨_, _, heq⟩
  cases heq

variable [LinearOrder τ]

/-- After its time an entry is dropped by the next issuance, and by its own redemption. -/
def Drops (token : Token) (entry : Entry τ) : Deal Token τ → Prop
  | .issue now _ _ => entry.expiresAt < now
  | .redeem now other _ => other = token ∧ entry.expiresAt < now

/-- The token was issued, and what came later would drop it. -/
def Lapsed (as : List (Deal Token τ)) (token : Token) : Prop :=
  ∃ pre post now entry, as = pre ++ .issue now token entry :: post ∧
    ∃ a ∈ post, Drops token entry a

/-- What `redeem_key` should do: `TimeoutError` for a token that was issued, is not redeemed and
has expired; `KeyError` for one that was never issued or is redeemed, and for no other. -/
def Exact (as : List (Deal Token τ)) (now : τ) (token : Token) (result : Redemption) : Prop :=
  (∀ entry, WasIssued as token entry → ¬ WasRedeemed as token → entry.expiresAt < now →
    result = .timeoutError) ∧
  (result = .keyError ↔ (∀ entry, ¬ WasIssued as token entry) ∨ WasRedeemed as token)

theorem lapsed_concat {as : List (Deal Token τ)} {a : Deal Token τ} {token : Token} :
    Lapsed (as ++ [a]) token ↔
      Lapsed as token ∨ ∃ entry, WasIssued as token entry ∧ Drops token entry a := by
  constructor
  · rintro ⟨pre, post, now, entry, has, b, hb, hdrops⟩
    rcases List.eq_nil_or_concat post with rfl | ⟨post, c, rfl⟩
    · exact absurd hb List.not_mem_nil
    rw [List.concat_eq_append] at has hb
    have hsplit : as ++ [a] = (pre ++ .issue now token entry :: post) ++ [c] := by
      rw [has, List.append_assoc, List.cons_append]
    obtain ⟨rfl, hlast⟩ := List.append_inj' hsplit rfl
    obtain rfl := List.singleton_inj.mp hlast
    rcases List.mem_append.mp hb with hb | hb
    · exact Or.inl ⟨pre, post, now, entry, rfl, b, hb, hdrops⟩
    · obtain rfl := List.mem_singleton.mp hb
      exact Or.inr ⟨entry, ⟨now, List.mem_append_right _ List.mem_cons_self⟩, hdrops⟩
  · rintro (⟨pre, post, now, entry, rfl, b, hb, hdrops⟩ | ⟨entry, ⟨now, hmem⟩, hdrops⟩)
    · exact ⟨pre, post ++ [a], now, entry, by rw [List.append_assoc, List.cons_append], b,
        List.mem_append_left _ hb, hdrops⟩
    · obtain ⟨pre, post, rfl⟩ := List.append_of_mem hmem
      exact ⟨pre, post ++ [a], now, entry, by rw [List.append_assoc, List.cons_append], a,
        List.mem_append_right _ (List.mem_singleton_self a), hdrops⟩

theorem Lapsed.issued {as : List (Deal Token τ)} {token : Token} (h : Lapsed as token) :
    ∃ entry, WasIssued as token entry := by
  obtain ⟨pre, post, now, entry, rfl, -⟩ := h
  exact ⟨entry, now, List.mem_append_right _ List.mem_cons_self⟩

/-! ### The table by the history -/

/-- The table by the history: an entry was issued, and nothing since has taken it out. -/
structure DeskInv (as : List (Deal Token τ)) (s : Desk Token τ) : Prop where
  issued : ∀ {token entry}, WasIssued as token entry → token ∈ s.drawn
  redeemed : ∀ {token}, WasRedeemed as token → token ∈ s.drawn
  unique : ∀ {token entry entry'}, WasIssued as token entry → WasIssued as token entry' →
    entry = entry'
  present : ∀ {token entry}, s.pending token = some entry →
    WasIssued as token entry ∧ ¬ WasRedeemed as token ∧ ¬ Lapsed as token
  absent : ∀ {token entry}, s.pending token = none → WasIssued as token entry →
    WasRedeemed as token ∨ Lapsed as token

variable {as : List (Deal Token τ)} {s s' : Desk Token τ}

theorem deskInv_start (now : τ) : DeskInv [] (Desk.start now : Desk Token τ) where
  issued h := by obtain ⟨_, h⟩ := h; cases h
  redeemed h := by obtain ⟨_, _, h⟩ := h; cases h
  unique h := by obtain ⟨_, h⟩ := h; cases h
  present h := by cases h
  absent _ h := by obtain ⟨_, h⟩ := h; cases h

/-- A token that is new has no past. -/
theorem DeskInv.fresh (h : DeskInv as s) {token : Token} (hfresh : token ∉ s.drawn) :
    (∀ entry, ¬ WasIssued as token entry) ∧ ¬ WasRedeemed as token ∧ ¬ Lapsed as token := by
  refine ⟨fun _ hissued => hfresh (h.issued hissued), fun hr => hfresh (h.redeemed hr),
    fun hl => ?_⟩
  obtain ⟨entry, hissued⟩ := hl.issued
  exact hfresh (h.issued hissued)

variable [DecidableEq Token]

inductive DeskStep : Desk Token τ → Deal Token τ → Desk Token τ → Prop
  | issue {s : Desk Token τ} {now : τ} {token : Token} {entry : Entry τ} : s.now ≤ now →
      token ∉ s.drawn → DeskStep s (.issue now token entry)
        ⟨now, issue now token entry s.pending, token :: s.drawn⟩
  | redeem {s : Desk Token τ} {now : τ} {token : Token} : s.now ≤ now →
      DeskStep s (.redeem now token (redeemKey now token s.pending).2)
        { s with now, pending := (redeemKey now token s.pending).1 }

/-- After an issuance the table has the new token, and of the others those that have not
expired. -/
theorem issue_eq_some {now : τ} {token other : Token} {entry e : Entry τ}
    {pending : Token → Option (Entry τ)} :
    KeyRelease.issue now token entry pending other = some e ↔
      other = token ∧ entry = e ∨
        other ≠ token ∧ pending other = some e ∧ now ≤ e.expiresAt := by
  rw [KeyRelease.issue, Function.update_apply]
  by_cases hother : other = token
  · rw [if_pos hother]
    simp [hother]
  · rw [if_neg hother, sweep_eq_some]
    simp [hother]

/-- An issuance. -/
theorem DeskInv.issue (h : DeskInv as s) {now : τ} {token : Token} {entry : Entry τ}
    (hfresh : token ∉ s.drawn) :
    DeskInv (as ++ [.issue now token entry])
      ⟨now, KeyRelease.issue now token entry s.pending, token :: s.drawn⟩ := by
  obtain ⟨hnever, hnot, hlapsed⟩ := h.fresh hfresh
  have hissued : ∀ {other e}, WasIssued (as ++ [.issue now token entry]) other e →
      WasIssued as other e ∨ other = token ∧ entry = e := by
    intro other e hother
    rcases wasIssued_concat.mp hother with hother | ⟨_, heq⟩
    · exact Or.inl hother
    · cases heq
      exact Or.inr ⟨rfl, rfl⟩
  constructor
  case issued =>
    intro other e hother
    rcases hissued hother with hother | ⟨rfl, -⟩
    · exact List.mem_cons_of_mem _ (h.issued hother)
    · exact List.mem_cons_self
  case redeemed =>
    exact fun hother => List.mem_cons_of_mem _ (h.redeemed (wasRedeemed_issue.mp hother))
  case unique =>
    intro other e e' he he'
    rcases hissued he with hold | ⟨rfl, rfl⟩
    · rcases hissued he' with hold' | ⟨rfl, -⟩
      · exact h.unique hold hold'
      · exact absurd hold (hnever e)
    · rcases hissued he' with hold' | ⟨-, rfl⟩
      · exact absurd hold' (hnever e')
      · rfl
  case present =>
    intro other e hpending
    rw [wasRedeemed_issue, lapsed_concat, wasIssued_concat, not_or]
    rcases issue_eq_some.mp hpending with ⟨rfl, rfl⟩ | ⟨-, hold, hle⟩
    · exact ⟨Or.inr ⟨now, rfl⟩, hnot, hlapsed, fun ⟨e, he, _⟩ => hnever e he⟩
    · obtain ⟨hbefore, hnot', hlapsed'⟩ := h.present hold
      refine ⟨Or.inl hbefore, hnot', hlapsed', ?_⟩
      rintro ⟨e', he', hdrops⟩
      obtain rfl := h.unique hbefore he'
      exact absurd hdrops (not_lt.mpr hle)
  case absent =>
    intro other e hpending hother
    rw [wasRedeemed_issue, lapsed_concat]
    have hgone : ∀ e, KeyRelease.issue now token entry s.pending other ≠ some e := by
      intro e heq
      cases hpending.symm.trans heq
    have hne : other ≠ token := fun heq => hgone entry (issue_eq_some.mpr (Or.inl ⟨heq, rfl⟩))
    have hbefore : WasIssued as other e := (hissued hother).resolve_right fun h => hne h.1
    cases hold : s.pending other with
    | none => exact (h.absent hold hbefore).imp_right Or.inl
    | some e' =>
      -- it was there, so the sweep has dropped it
      refine Or.inr (Or.inr ⟨e', (h.present hold).1, ?_⟩)
      by_contra hle
      exact hgone e' (issue_eq_some.mpr (Or.inr ⟨hne, hold, not_lt.mp hle⟩))

/-- Afterwards the token that was to be redeemed is not in the table: it was not, or it has been
redeemed, or it had expired. -/
theorem DeskInv.leaves (h : DeskInv as s) {now : τ} {token : Token} {result : Redemption}
    {pending : Token → Option (Entry τ)} (hgone : pending token = none)
    (hothers : ∀ other ≠ token, pending other = s.pending other)
    (hkey : ∀ key, result = .key key → ∃ entry, s.pending token = some entry)
    (hwhy : ∀ entry, s.pending token = some entry →
      (∃ key, result = .key key) ∨ entry.expiresAt < now) :
    DeskInv (as ++ [.redeem now token result]) { s with now, pending } := by
  have hissued : ∀ {other e}, WasIssued (as ++ [.redeem now token result]) other e →
      WasIssued as other e := by
    intro other e hother
    rcases wasIssued_concat.mp hother with hother | ⟨_, heq⟩
    · exact hother
    · cases heq
  constructor
  case issued => exact fun hother => h.issued (hissued hother)
  case unique => exact fun he he' => h.unique (hissued he) (hissued he')
  case redeemed =>
    intro other hother
    rcases wasRedeemed_concat.mp hother with hother | ⟨_, key, heq⟩
    · exact h.redeemed hother
    · cases heq
      obtain ⟨entry, hentry⟩ := hkey key rfl
      exact h.issued (h.present hentry).1
  case present =>
    intro other e hpending
    have hne : other ≠ token := by
      rintro rfl
      cases hgone.symm.trans hpending
    obtain ⟨he, hnot, hlapsed⟩ := h.present ((hothers other hne).symm.trans hpending)
    refine ⟨wasIssued_concat.mpr (Or.inl he), fun hr => ?_, fun hl => ?_⟩
    · rcases wasRedeemed_concat.mp hr with hr | ⟨_, _, heq⟩
      · exact hnot hr
      · cases heq
        exact hne rfl
    · rcases lapsed_concat.mp hl with hl | ⟨_, _, heq, -⟩
      · exact hlapsed hl
      · exact hne heq.symm
  case absent =>
    intro other e hpending hother
    rw [lapsed_concat, wasRedeemed_concat]
    by_cases hne : other = token
    · subst hne
      cases hold : s.pending other with
      | none =>
        rcases h.absent hold (hissued hother) with hr | hl
        · exact Or.inl (Or.inl hr)
        · exact Or.inr (Or.inl hl)
      | some entry =>
        rcases hwhy entry hold with ⟨key, rfl⟩ | hlt
        · exact Or.inl (Or.inr ⟨now, key, rfl⟩)
        · exact Or.inr (Or.inr ⟨entry, (h.present hold).1, rfl, hlt⟩)
    · rcases h.absent ((hothers other hne).symm.trans hpending) (hissued hother) with hr | hl
      · exact Or.inl (Or.inl hr)
      · exact Or.inr (Or.inl hl)

/-- A redemption. -/
theorem DeskInv.redeem (h : DeskInv as s) (now : τ) (token : Token) :
    DeskInv (as ++ [.redeem now token (redeemKey now token s.pending).2])
      { s with now, pending := (redeemKey now token s.pending).1 } := by
  rcases redeemKey_cases now token s.pending with ⟨hnone, hout⟩ |
    ⟨entry, hentry, ⟨hlt, hout⟩ | ⟨-, hout⟩⟩
  · rw [hout]
    refine h.leaves hnone (fun _ _ => rfl) nofun fun entry hentry => ?_
    rw [hnone] at hentry
    cases hentry
  · rw [hout]
    refine h.leaves (Function.update_self ..) (fun _ hne => Function.update_of_ne hne ..) nofun ?_
    intro entry' hentry'
    obtain rfl := Option.some.inj (hentry.symm.trans hentry')
    exact Or.inr hlt
  · rw [hout]
    exact h.leaves (Function.update_self ..) (fun _ hne => Function.update_of_ne hne ..)
      (fun _ _ => ⟨entry, hentry⟩) fun _ _ => Or.inl ⟨entry.key, rfl⟩

theorem DeskInv.step (h : DeskInv as s) {a : Deal Token τ} (hstep : DeskStep s a s') :
    DeskInv (as ++ [a]) s' := by
  cases hstep with
  | issue _ hfresh => exact h.issue hfresh
  | redeem _ => exact h.redeem _ _

theorem deskInv_run {now : τ} (hrun : Run DeskStep (Desk.start now) as s) : DeskInv as s :=
  hrun.history (I := DeskInv) (deskInv_start now) fun h hstep => h.step hstep

/-! ### What is raised -/

/-- **One redemption.**  It ends as it should exactly when the token was redeemed before, or
has not been dropped after its time. -/
theorem DeskInv.exact_iff (h : DeskInv as s) (now : τ) (token : Token) :
    Exact as now token (redeemKey now token s.pending).2 ↔
      WasRedeemed as token ∨ ¬ Lapsed as token := by
  rcases redeemKey_cases now token s.pending with ⟨hnone, hout⟩ | ⟨entry, hentry, hcases⟩
  · rw [hout]
    constructor
    · rintro ⟨-, hexact⟩
      by_contra hnot
      rw [not_or, not_not] at hnot
      obtain ⟨hredeemed, hlapsed⟩ := hnot
      obtain ⟨entry, hissued⟩ := hlapsed.issued
      rcases hexact.mp rfl with hnever | hr
      · exact hnever entry hissued
      · exact hredeemed hr
    · intro hor
      have hissued : ∀ entry, WasIssued as token entry → WasRedeemed as token :=
        fun entry hissued => (h.absent hnone hissued).elim id fun hl => hor.elim id (absurd hl)
      refine ⟨fun entry hentry hnot => absurd (hissued entry hentry) hnot, fun _ => ?_, fun _ => rfl⟩
      by_cases hnever : ∀ entry, ¬ WasIssued as token entry
      · exact Or.inl hnever
      · push Not at hnever
        obtain ⟨entry, hentry⟩ := hnever
        exact Or.inr (hissued entry hentry)
  · obtain ⟨hissued, hnot, hlapsed⟩ := h.present hentry
    refine iff_of_true ?_ (Or.inr hlapsed)
    have hresult : (redeemKey now token s.pending).2 ≠ .keyError := by
      rcases hcases with ⟨-, hout⟩ | ⟨-, hout⟩
      · rw [hout]
        exact nofun
      · rw [hout]
        exact nofun
    refine ⟨fun entry' hentry' _ hlt => ?_, fun heq => absurd heq hresult, ?_⟩
    · obtain rfl := h.unique hissued hentry'
      rcases hcases with ⟨-, hout⟩ | ⟨hle, -⟩
      · rw [hout]
      · exact absurd hlt (not_lt.mpr hle)
    · rintro (hnever | hr)
      · exact absurd hissued (hnever entry)
      · exact absurd hr hnot

/-- **Exceptions of `redeem_key`.**  In a run all redemptions end as they should exactly when
none is of a token that is not redeemed and has been dropped: there has been, after its time, an
issuance or another attempt to redeem it. -/
theorem redeem_exact_iff {now₀ : τ} (hrun : Run DeskStep (Desk.start now₀) as s) :
    (∀ pre now token result post, as = pre ++ .redeem now token result :: post →
      Exact pre now token result) ↔
    ∀ pre now token result post, as = pre ++ .redeem now token result :: post →
      WasRedeemed pre token ∨ ¬ Lapsed pre token := by
  have hone : ∀ pre now token result post, as = pre ++ .redeem now token result :: post →
      (Exact pre now token result ↔ WasRedeemed pre token ∨ ¬ Lapsed pre token) := by
    rintro pre now token result post rfl
    obtain ⟨u, v, hpre, hstep⟩ := hrun.before
    cases hstep with
    | redeem _ => exact (deskInv_run hpre).exact_iff now token
  constructor
  · exact fun hall pre now token result post has =>
      (hone pre now token result post has).mp (hall pre now token result post has)
  · exact fun hall pre now token result post has =>
      (hone pre now token result post has).mpr (hall pre now token result post has)

/-- A token is redeemed after its time, and nothing else has happened. -/
theorem redeem_exact_iff_sample :
    ∃ (as : List (Deal ℕ ℕ)) (s : Desk ℕ ℕ), Run DeskStep (Desk.start 0) as s ∧
      as = [.issue 0 1 ⟨[], 5⟩, .redeem 11 1 .timeoutError] ∧
      ∀ pre now token result post, as = pre ++ .redeem now token result :: post →
        Exact pre now token result := by
  have hrun : Run DeskStep (Desk.start 0 : Desk ℕ ℕ)
      [.issue 0 1 ⟨[], 5⟩, .redeem 11 1 .timeoutError] _ :=
    (Run.single (.issue le_rfl List.not_mem_nil)).snoc (.redeem (Nat.zero_le 11))
  refine ⟨_, _, hrun, rfl, (redeem_exact_iff hrun).mpr ?_⟩
  intro pre now token result post has
  refine Or.inr ?_
  rintro ⟨before, after, _, _, rfl, a, ha, -⟩
  have hlength := congrArg List.length has
  simp at hlength
  have hafter : after = [] := List.eq_nil_of_length_eq_zero (by omega)
  rw [hafter] at ha
  cases ha

/-- Token 1 expires and leaves the table when token 2 is issued: to redeem it is then
`KeyError`. -/
theorem redeem_swept :
    ¬ ∀ (as : List (Deal ℕ ℕ)) (s : Desk ℕ ℕ), Run DeskStep (Desk.start 0) as s →
      ∀ pre now token result post, as = pre ++ .redeem now token result :: post →
        Exact pre now token result := by
  intro hall
  have hrun : Run DeskStep (Desk.start 0 : Desk ℕ ℕ)
      [.issue 0 1 ⟨[], 5⟩, .issue 10 2 ⟨[], 20⟩, .redeem 11 1 .keyError] _ :=
    ((Run.single (.issue le_rfl List.not_mem_nil)).snoc
      (.issue (Nat.zero_le 10) (by decide))).snoc (.redeem (by decide))
  have hexact := hall _ _ hrun [.issue 0 1 ⟨[], 5⟩, .issue 10 2 ⟨[], 20⟩] 11 1 .keyError [] rfl
  have hredeemed : ¬ WasRedeemed [.issue 0 1 ⟨[], 5⟩, .issue 10 2 ⟨[], 20⟩] 1 := by
    rintro ⟨_, _, hmem⟩
    simp at hmem
  cases hexact.1 ⟨[], 5⟩ ⟨0, List.mem_cons_self⟩ hredeemed (by decide)

end KeyRelease
