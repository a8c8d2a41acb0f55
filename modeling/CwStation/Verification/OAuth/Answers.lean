import CwStation.Verification.OAuth.Sweeps

/-! # The answers of the token endpoint

What a request to `/token` is answered with, alone in any state that a run has reached: the code
that it names decides, and the texts that are compared. -/

namespace CwStation.OAuth

open Auth Requests Threads

variable {env : Env} {w w' : World} {job : Job}

/-! ### A key is gone for one reason -/

/-- Codes that nobody has used and that have no key are past their time. -/
def Kempt (env : Env) (w : World) : Prop :=
  ∀ c ∈ w.codes, c.usedAt = none → c.rawKey = [] → env.life < w.now - c.createdAt

/-- The cutoff of a sweep is behind the clock by the time to live. -/
def Paced (env : Env) (w : World) (_ : Job) : Place → Prop
  | .sweep (.select cutoff) _ | .sweep (.stamp cutoff _) _ | .sweep (.revoke cutoff _ _) _
  | .sweep (.scrub cutoff) _ => cutoff + env.life ≤ w.now
  | _ => True

theorem Paced.evolves {p : Place} (h : Paced env w job p) (hw : Evolves w w') :
    Paced env w' job p := by
  cases p with
  | done | find | age | stamp | claim | mint | mintAt | issue | issueAt | elapse => exact trivial
  | sweep s caller =>
    cases s with
    | begin => exact trivial
    | select | stamp | revoke | scrub => exact le_trans h hw.now

theorem paced_caller (caller : Caller) (count : ℕ) : Paced env w job (caller.place count) := by
  cases caller <;> exact trivial

theorem Paced.next {p : Place} (h : Paced env w job p) :
    Paced env (p.next env w).2 job (p.next env w).1 := by
  cases p with
  | done | stamp | claim | mint | mintAt | issue | issueAt | elapse => exact trivial
  | find r =>
    cases hfound : findCode r.code w with
    | none => simp [Place.next, hfound, foundPlace, Paced]
    | some row =>
      rcases rowPlace_cases r row with ⟨d, hd⟩ | ⟨hplace, -⟩
      · simp [Place.next, hfound, foundPlace, hd, Paced]
      · simp [Place.next, hfound, foundPlace, hplace, Paced]
  | age r row =>
    rw [Place.next, agePlace, pkcePlace]
    split
    · exact trivial
    · split <;> exact trivial
  | sweep s caller =>
    cases s with
    | begin =>
      change w.now - env.life + env.life ≤ w.now
      omega
    | select cutoff =>
      change Paced env w job (selectPlace caller cutoff (staleTokens cutoff w))
      rw [selectPlace]
      split
      · exact paced_caller caller 0
      · exact h
    | stamp | revoke => exact h
    | scrub cutoff => exact paced_caller caller _

theorem paced_enter : Paced env w job (enter env job) := by
  rcases enter_cases env job with ⟨a, ha, -⟩ | ⟨c, -, hc⟩ | ⟨r, -, hr⟩ | ⟨-, hs⟩ | ⟨n, -, hn⟩
  · rw [ha]
    exact trivial
  · rw [hc]
    exact trivial
  · rw [hr]
    exact trivial
  · rw [hs]
    exact trivial
  · rw [hn]
    exact trivial

theorem Kempt.of_codes (h : Kempt env w) (hcodes : w'.codes = w.codes) (hnow : w.now ≤ w'.now) :
    Kempt env w' := by
  intro c hc hunused hkey
  have hold := h c (hcodes ▸ hc) hunused hkey
  omega

theorem Kempt.next (h : Kempt env w) {p : Place} (hp : Paced env w job p) :
    Kempt env (p.next env w).2 := by
  cases p with
  | done | find | age | stamp | mint | mintAt | issue => exact h
  | elapse n => exact h.of_codes rfl (Int.le.intro n rfl)
  | claim r row usedAt =>
    intro c hc hunused hkey
    obtain ⟨c₀, hc₀, rfl⟩ := List.mem_map.mp hc
    by_cases hclaimed : (c₀.id = row.id && c₀.usedAt.isNone) = true
    · rw [if_pos hclaimed] at hunused
      cases hunused
    · rw [if_neg hclaimed] at hunused hkey ⊢
      exact h c₀ hc₀ hunused hkey
  | issueAt consent apiToken createdAt =>
    by_cases htaken : (w.codes.any fun c =>
        c.code = (newCode consent apiToken createdAt w.nextCode).code) = true
    · change Kempt env (insertCode _ w).2
      rw [insertCode_taken htaken]
      exact h
    · change Kempt env (insertCode _ w).2
      rw [insertCode_free htaken]
      intro c hc hunused hkey
      rcases List.mem_append.mp hc with hc | hc
      · exact h c hc hunused hkey
      · rw [List.mem_singleton.mp hc] at hkey
        exact absurd hkey (RawKey.ne_nil consent.rawKey)
  | sweep s caller =>
    cases s with
    | begin | select | stamp | revoke => exact h
    | scrub cutoff =>
      intro c hc hunused hkey
      obtain ⟨c₀, hc₀, rfl⟩ := List.mem_map.mp hc
      by_cases hstale : stale cutoff c₀ = true
      · rw [if_pos hstale] at *
        have hold := (stale_iff.mp hstale).2.1
        have hcutoff : cutoff + env.life ≤ w.now := hp
        change env.life < w.now - c₀.createdAt
        omega
      · rw [if_neg hstale] at hunused hkey ⊢
        exact h c₀ hc₀ hunused hkey

theorem kempt_site (env : Env) (now : ℤ) (turns : List (Turn Job)) :
    Server.Invariant (Kempt env) (Paced env) (fun _ _ _ _ => True) (Site env now turns) := by
  induction turns using List.reverseRecOn with
  | nil =>
    refine ⟨fun c hc => absurd hc List.not_mem_nil, fun hi => ?_, fun _ _ _ => trivial⟩
    cases hi
  | append_singleton turns turn ih =>
    rw [Site, Server.run_concat]
    cases turn with
    | start job =>
      exact Server.Invariant.start ih (fun _ _ _ _ h => h) paced_enter fun _ => trivial
    | run i =>
      apply Server.Invariant.run ih fun _ _ _ _ h => h
      intro job p hi
      exact
        { state := ih.state.next (ih.request hi)
          own := (ih.request hi).next
          other := fun _ hj => (ih.request hj).evolves (p.evolves _)
          pair := fun _ _ => trivial }

/-! ### A request alone -/

/-- What the endpoint answers to a request that has the server to itself. -/
def answer (env : Env) (r : TokenRequest) (w : World) : Answer := ((token env r).eval w).1

/-- The request names a code that nobody has used and that is in time, and not another URI. -/
structure Presents (env : Env) (w : World) (r : TokenRequest) (c : AuthorizationCode) : Prop where
  grant : r.grantType = "authorization_code".toList
  stored : c ∈ w.codes
  code : c.code = r.code
  redirect : r.redirectUri = [] ∨ r.redirectUri = c.redirectUri
  unused : c.usedAt = none
  young : w.now - c.createdAt ≤ env.life

/-- The verifier hashes to the challenge; only an ASCII text hashes at all. -/
def Matches (env : Env) (verifier challenge : Str) : Prop :=
  verifier ≠ [] ∧ challenge ≠ [] ∧ isAscii verifier = true ∧ env.s256 verifier = challenge

/-- The texts can be compared. -/
def Comparable (verifier challenge : Str) : Prop :=
  verifier = [] ∨ challenge = [] ∨ isAscii verifier = true ∧ isAscii challenge = true

theorem answer_of_nothing {r : TokenRequest} (h : ∀ c, ¬Presents env w r c) :
    ∃ error description, answer env r w = .badRequest error description := by
  by_cases hgrant : r.grantType = "authorization_code".toList
  · rw [answer, token, if_neg (not_not.mpr hgrant), readRow, Prog.eval_read_bind]
    cases hfound : findCode r.code w with
    | none => exact ⟨_, _, rfl⟩
    | some row =>
      change ∃ error description, ((checkRow env r row).eval w).1 = .badRequest error description
      rw [checkRow]
      by_cases hredirect : r.redirectUri ≠ [] ∧ r.redirectUri ≠ row.redirectUri
      · simp only [if_pos hredirect]
        exact ⟨_, _, rfl⟩
      · by_cases hused : row.usedAt ≠ none
        · simp only [if_neg hredirect, if_pos hused]
          exact ⟨_, _, rfl⟩
        · simp only [if_neg hredirect, if_neg hused]
          rw [checkAge, timezoneNow, Prog.eval_read_bind]
          by_cases hold : env.life < w.now - row.createdAt
          · rw [if_pos hold, codeExpired, Prog.eval_bind]
            exact ⟨_, _, rfl⟩
          · rw [not_and_or, not_not, not_not] at hredirect
            exact absurd ⟨hgrant, Table.get_mem hfound, Table.key_of_get hfound, hredirect,
              not_not.mp hused, not_lt.mp hold⟩ (h row)
  · rw [answer, token, if_pos hgrant]
    exact ⟨_, _, rfl⟩

theorem answer_of_presents {r : TokenRequest} {c : AuthorizationCode} (hw : Tables w)
    (h : Presents env w r c) : answer env r w = ((checkPkce env r c).eval w).1 := by
  have hfound : findCode r.code w = some c := h.code ▸ Table.get_of_mem hw.codes h.stored
  have hredirect : ¬(r.redirectUri ≠ [] ∧ r.redirectUri ≠ c.redirectUri) := by
    rw [not_and_or, not_not, not_not]
    exact h.redirect
  rw [answer, token, if_neg (not_not.mpr h.grant), readRow, Prog.eval_read_bind, hfound]
  simp only [checkRow, if_neg hredirect, if_neg (not_not.mpr h.unused)]
  rw [checkAge, timezoneNow, Prog.eval_read_bind, if_neg (not_lt.mpr h.young)]

theorem issued_of_presents {r : TokenRequest} {c : AuthorizationCode} (hkempt : Kempt env w)
    (h : Presents env w r c) : ∃ key scope, ((redeem c).eval w).1 = .issued key scope := by
  have hclaimed : (OAuth.claim c.id w.now w).1 ≠ 0 := by
    apply Nat.ne_of_gt
    apply List.length_pos_of_mem
    exact List.mem_filter.mpr ⟨h.stored, by simp [h.unused]⟩
  have hkey : c.rawKey ≠ [] := fun hnil =>
    not_lt.mpr h.young (hkempt c h.stored h.unused hnil)
  rw [redeem, timezoneNow, Prog.eval_read_bind, claimAt, Prog.eval_stmt_bind]
  rw [Prog.eval_pure, claimAnswer, if_neg hclaimed, if_neg hkey]
  exact ⟨_, _, rfl⟩

theorem answer_of_not_comparable {r : TokenRequest} {c : AuthorizationCode} (hw : Tables w)
    (h : Presents env w r c) (htexts : ¬Comparable r.codeVerifier c.codeChallenge) :
    ∃ e, answer env r w = .raised e := by
  rw [Comparable, not_or, not_or] at htexts
  obtain ⟨hverifier, hchallenge, hascii⟩ := htexts
  rw [answer_of_presents hw h, checkPkce, verifyPkce, if_neg (by simp [hverifier, hchallenge]),
    if_neg (by simp)]
  by_cases hplain : isAscii r.codeVerifier = true
  · have hother : ¬isAscii c.codeChallenge = true := fun hc => hascii ⟨hplain, hc⟩
    rw [if_neg (by simp [hplain]), if_pos (by simpa using hother)]
    exact ⟨_, rfl⟩
  · rw [if_pos (by simpa using hplain)]
    exact ⟨_, rfl⟩

/-- Texts that can be compared are, and the answer is as they match. -/
theorem answer_of_comparable {r : TokenRequest} {c : AuthorizationCode} (hw : Tables w)
    (hkempt : Kempt env w) (h : Presents env w r c)
    (htexts : Comparable r.codeVerifier c.codeChallenge) :
    (Matches env r.codeVerifier c.codeChallenge ∧
        ∃ key scope, answer env r w = .issued key scope) ∨
      (¬Matches env r.codeVerifier c.codeChallenge ∧
        ∃ error description, answer env r w = .badRequest error description) := by
  rw [answer_of_presents hw h, checkPkce, verifyPkce]
  by_cases hempty : r.codeVerifier = [] ∨ c.codeChallenge = []
  · rw [if_pos hempty]
    refine .inr ⟨fun hmatches => ?_, _, _, rfl⟩
    exact hempty.elim hmatches.1 hmatches.2.1
  · rw [not_or] at hempty
    have hascii : isAscii r.codeVerifier = true ∧ isAscii c.codeChallenge = true :=
      (htexts.resolve_left hempty.1).resolve_left hempty.2
    rw [if_neg (by simp [hempty]), if_neg (by simp), if_neg (by simp [hascii.1]),
      if_neg (by simp [hascii.2])]
    by_cases hsame : env.s256 r.codeVerifier = c.codeChallenge
    · rw [decide_eq_true hsame]
      exact .inl ⟨⟨hempty.1, hempty.2, hascii.1, hsame⟩, issued_of_presents hkempt h⟩
    · rw [decide_eq_false hsame]
      exact .inr ⟨fun hmatches => hsame hmatches.2.2.2, _, _, rfl⟩

/-- The endpoint answers, with a key for a code that is presented with its verifier, and with a
400 else. -/
structure Answers (env : Env) (w : World) (r : TokenRequest) : Prop where
  answered : ∀ e, answer env r w ≠ .raised e
  issued : (∃ key scope, answer env r w = .issued key scope) ↔
    ∃ c, Presents env w r c ∧ Matches env r.codeVerifier c.codeChallenge
  refused : (¬∃ c, Presents env w r c ∧ Matches env r.codeVerifier c.codeChallenge) →
    ∃ error description, answer env r w = .badRequest error description

/-- The endpoint answers in every state that a run reaches, but for a request that presents a code
with a verifier or a challenge beyond ASCII. -/
theorem token_answers_iff (env : Env) (now : ℤ) (turns : List (Turn Job)) (r : TokenRequest) :
    Answers env (served env now turns).state r ↔
      ∀ c, Presents env (served env now turns).state r c →
        Comparable r.codeVerifier c.codeChallenge := by
  rw [state_served]
  have hw : Tables (Site env now turns).state := (sound_site env now turns).state
  have hkempt : Kempt env (Site env now turns).state := (kempt_site env now turns).state
  constructor
  · intro h c hc
    by_contra htexts
    obtain ⟨e, he⟩ := answer_of_not_comparable hw hc htexts
    exact h.answered e he
  · intro h
    by_cases hpresents : ∃ c, Presents env (Site env now turns).state r c
    · obtain ⟨c, hc⟩ := hpresents
      -- a code is stored once
      have hone : ∀ c', Presents env (Site env now turns).state r c' → c' = c := fun c' hc' =>
        hw.codes.eq_of_key hc'.stored hc.stored (hc'.code.trans hc.code.symm)
      have hiff : (∃ c, Presents env (Site env now turns).state r c ∧
          Matches env r.codeVerifier c.codeChallenge) ↔ Matches env r.codeVerifier c.codeChallenge :=
        ⟨fun ⟨c', hc', hmatches⟩ => hone c' hc' ▸ hmatches, fun hmatches => ⟨c, hc, hmatches⟩⟩
      rcases answer_of_comparable hw hkempt hc (h c hc) with
        ⟨hmatches, key, scope, ha⟩ | ⟨hno, error, description, ha⟩
      · refine ⟨by simp [ha], ?_, ?_⟩
        · rw [hiff]
          exact iff_of_true ⟨key, scope, ha⟩ hmatches
        · intro hnone
          exact absurd (hiff.mpr hmatches) hnone
      · refine ⟨by simp [ha], ?_, fun _ => ⟨error, description, ha⟩⟩
        rw [hiff]
        exact iff_of_false (by simp [ha]) hno
    · obtain ⟨error, description, ha⟩ := answer_of_nothing (not_exists.mp hpresents)
      refine ⟨by simp [ha], ?_, fun _ => ⟨error, description, ha⟩⟩
      exact iff_of_false (by simp [ha]) fun ⟨c, hc, _⟩ => hpresents ⟨c, hc⟩

/-- A verifier with an accent, for a code that is waiting. -/
def accented : TokenRequest := { exchange with codeVerifier := "vérifier".toList }

/-- The consent alone. -/
def consented : List (Turn Job) := .start (.authorize consent) :: turnsOf 0 6

theorem accented_raises : answer plainEnv accented (served plainEnv 0 consented).state =
      .raised "UnicodeEncodeError" ∧
    ¬Answers plainEnv (served plainEnv 0 consented).state accented := by
  have hraised : answer plainEnv accented (served plainEnv 0 consented).state =
      .raised "UnicodeEncodeError" := by decide +kernel
  exact ⟨hraised, fun h => h.answered _ hraised⟩

end CwStation.OAuth
