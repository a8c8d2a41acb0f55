import CwStation.Verification.OAuth.Places

/-! # One delivery for each code

The claim is one statement on a row that nobody has used, so of all the requests for a code one
at most is answered with its key. -/

namespace CwStation.OAuth

open Auth Requests Threads

variable {env : Env} {w w' : World}

/-! ### Rows -/

/-- What a row is about, whatever has become of its key. -/
def face (c : AuthorizationCode) : AuthorizationCode := { c with rawKey := [], usedAt := none }

/-- What may become of a row: a used row stays, and a key is there or it is gone. -/
structure Kept (c c' : AuthorizationCode) : Prop where
  face : face c' = face c
  used : c.usedAt ≠ none → c' = c
  key : c'.rawKey = c.rawKey ∨ c'.rawKey = []

theorem Kept.refl (c : AuthorizationCode) : Kept c c := ⟨rfl, fun _ => rfl, .inl rfl⟩

theorem Kept.trans {c c' c'' : AuthorizationCode} (h : Kept c c') (h' : Kept c' c'') :
    Kept c c'' where
  face := h'.face.trans h.face
  used hused := by
    have heq : c' = c := h.used hused
    exact (h'.used (heq ▸ hused)).trans heq
  key := by
    rcases h'.key with hkey | hkey
    · rw [hkey]
      exact h.key
    · exact .inr hkey

theorem id_of_face {c c' : AuthorizationCode} (h : face c' = face c) : c'.id = c.id :=
  congrArg (fun c => c.id) h

theorem code_of_face {c c' : AuthorizationCode} (h : face c' = face c) : c'.code = c.code :=
  congrArg (fun c => c.code) h

/-- Rows are kept, and time goes on. -/
structure Evolves (w w' : World) : Prop where
  codes : ∀ c ∈ w.codes, ∃ c' ∈ w'.codes, Kept c c'
  now : w.now ≤ w'.now

theorem Evolves.refl (w : World) : Evolves w w := ⟨fun c hc => ⟨c, hc, Kept.refl c⟩, le_rfl⟩

theorem Evolves.trans {w'' : World} (h : Evolves w w') (h' : Evolves w' w'') : Evolves w w'' where
  codes c hc := by
    obtain ⟨c', hc', hkept⟩ := h.codes c hc
    obtain ⟨c'', hc'', hkept'⟩ := h'.codes c' hc'
    exact ⟨c'', hc'', hkept.trans hkept'⟩
  now := h.now.trans h'.now

/-- The table of the codes, as the database and the claims keep it. -/
structure Tables (w : World) : Prop where
  ids : Table.Unique AuthorizationCode.id w.codes
  codes : Table.Unique AuthorizationCode.code w.codes
  fresh : ∀ c ∈ w.codes, c.id < w.nextCode
  spent : ∀ c ∈ w.codes, c.usedAt ≠ none → c.rawKey = []

/-! ### Updates of rows -/

/-- An update that keeps every row, and leaves no key with a used one. -/
structure Gentle (f : AuthorizationCode → AuthorizationCode) : Prop where
  kept : ∀ c, Kept c (f c)
  spent : ∀ c, (c.usedAt ≠ none → c.rawKey = []) → (f c).usedAt ≠ none → (f c).rawKey = []

/-- The claim of one row. -/
def claimRow (pk : ℕ) (usedAt : ℤ) (c : AuthorizationCode) : AuthorizationCode :=
  if c.id = pk && c.usedAt.isNone then { c with usedAt := some usedAt, rawKey := [] } else c

/-- The scrubbing of one row. -/
def scrubRow (cutoff : ℤ) (c : AuthorizationCode) : AuthorizationCode :=
  if stale cutoff c then { c with rawKey := [] } else c

theorem claimRow_of_used {pk : ℕ} {usedAt : ℤ} {c : AuthorizationCode} (h : c.usedAt ≠ none) :
    claimRow pk usedAt c = c := by
  rw [claimRow, if_neg]
  cases hused : c.usedAt with
  | none => exact absurd hused h
  | some t => simp

theorem scrubRow_of_used {cutoff : ℤ} {c : AuthorizationCode} (h : c.usedAt ≠ none) :
    scrubRow cutoff c = c := by
  rw [scrubRow, if_neg]
  cases hused : c.usedAt with
  | none => exact absurd hused h
  | some t => simp [stale, hused]

theorem gentle_claimRow (pk : ℕ) (usedAt : ℤ) : Gentle (claimRow pk usedAt) where
  kept c := by
    refine ⟨?_, claimRow_of_used, ?_⟩
    all_goals
      rw [claimRow]
      by_cases hclaimed : (c.id = pk && c.usedAt.isNone) = true
    · rw [if_pos hclaimed]
      rfl
    · rw [if_neg hclaimed]
    · rw [if_pos hclaimed]
      exact .inr rfl
    · rw [if_neg hclaimed]
      exact .inl rfl
  spent c hc := by
    rw [claimRow]
    by_cases hclaimed : (c.id = pk && c.usedAt.isNone) = true
    · rw [if_pos hclaimed]
      exact fun _ => rfl
    · rw [if_neg hclaimed]
      exact hc

theorem gentle_scrubRow (cutoff : ℤ) : Gentle (scrubRow cutoff) where
  kept c := by
    refine ⟨?_, scrubRow_of_used, ?_⟩
    all_goals
      rw [scrubRow]
      by_cases hstale : stale cutoff c = true
    · rw [if_pos hstale]
      rfl
    · rw [if_neg hstale]
    · rw [if_pos hstale]
      exact .inr rfl
    · rw [if_neg hstale]
      exact .inl rfl
  spent c hc hused := by
    rw [scrubRow] at hused ⊢
    by_cases hstale : stale cutoff c = true
    · rw [if_pos hstale]
    · rw [if_neg hstale] at hused ⊢
      exact hc hused

theorem Gentle.evolves {f : AuthorizationCode → AuthorizationCode} (hf : Gentle f)
    (hcodes : w'.codes = w.codes.map f) (hnow : w.now ≤ w'.now) : Evolves w w' where
  codes c hc := ⟨f c, hcodes ▸ List.mem_map_of_mem hc, hf.kept c⟩
  now := hnow

theorem Gentle.tables {f : AuthorizationCode → AuthorizationCode} (hf : Gentle f) (hw : Tables w)
    (hcodes : w'.codes = w.codes.map f) (hnext : w'.nextCode = w.nextCode) : Tables w' where
  ids := hcodes ▸ hw.ids.map fun c => id_of_face (hf.kept c).face
  codes := hcodes ▸ hw.codes.map fun c => code_of_face (hf.kept c).face
  fresh c' hc' := by
    rw [hcodes] at hc'
    obtain ⟨c, hc, rfl⟩ := List.mem_map.mp hc'
    rw [id_of_face (hf.kept c).face, hnext]
    exact hw.fresh c hc
  spent c' hc' := by
    rw [hcodes] at hc'
    obtain ⟨c, hc, rfl⟩ := List.mem_map.mp hc'
    exact hf.spent c (hw.spent c hc)

/-! ### The insertion of a row -/

theorem insertCode_taken {row : ℕ → AuthorizationCode}
    (h : (w.codes.any fun c => c.code = (row w.nextCode).code) = true) :
    insertCode row w = (false, w) := by
  rw [insertCode, if_pos h]

theorem insertCode_free {row : ℕ → AuthorizationCode}
    (h : ¬ (w.codes.any fun c => c.code = (row w.nextCode).code) = true) :
    insertCode row w =
      (true, { w with codes := w.codes ++ [row w.nextCode], nextCode := w.nextCode + 1 }) := by
  rw [insertCode, if_neg h]

theorem evolves_insertCode (row : ℕ → AuthorizationCode) (w : World) :
    Evolves w (insertCode row w).2 := by
  by_cases htaken : (w.codes.any fun c => c.code = (row w.nextCode).code) = true
  · rw [insertCode_taken htaken]
    exact Evolves.refl w
  · rw [insertCode_free htaken]
    exact ⟨fun c hc => ⟨c, List.mem_append_left _ hc, Kept.refl c⟩, le_rfl⟩

theorem Tables.insertCode (hw : Tables w) {row : ℕ → AuthorizationCode} (hid : ∀ id, (row id).id = id)
    (hunused : ∀ id, (row id).usedAt = none) : Tables (insertCode row w).2 := by
  by_cases htaken : (w.codes.any fun c => c.code = (row w.nextCode).code) = true
  · rw [insertCode_taken htaken]
    exact hw
  · rw [insertCode_free htaken]
    have hfree : ∀ c ∈ w.codes, c.code ≠ (row w.nextCode).code := by simpa using htaken
    refine ⟨?_, ?_, ?_, ?_⟩
    · apply hw.ids.append
      rw [Table.get_eq_none_iff, hid]
      exact fun c hc => (hw.fresh c hc).ne
    · exact hw.codes.append (Table.get_eq_none_iff.mpr hfree)
    · intro c hc
      rcases List.mem_append.mp hc with hc | hc
      · exact Nat.lt_succ_of_lt (hw.fresh c hc)
      · rw [List.mem_singleton.mp hc, hid]
        exact Nat.lt_succ_self _
    · intro c hc hused
      rcases List.mem_append.mp hc with hc | hc
      · exact hw.spent c hc hused
      · rw [List.mem_singleton.mp hc, hunused] at hused
        exact absurd rfl hused

/-! ### Steps -/

theorem Place.evolves (p : Place) (w : World) : Evolves w (p.next env w).2 := by
  cases p with
  | done | find | age | stamp | mint | issue => exact Evolves.refl w
  | claim r row usedAt => exact (gentle_claimRow row.id usedAt).evolves rfl le_rfl
  | mintAt => exact ⟨fun c hc => ⟨c, hc, Kept.refl c⟩, le_rfl⟩
  | issueAt c apiToken createdAt => exact evolves_insertCode _ w
  | elapse n => exact ⟨fun c hc => ⟨c, hc, Kept.refl c⟩, Int.le.intro n rfl⟩
  | sweep s caller =>
    cases s with
    | begin | select | stamp => exact Evolves.refl w
    | revoke => exact ⟨fun c hc => ⟨c, hc, Kept.refl c⟩, le_rfl⟩
    | scrub cutoff => exact (gentle_scrubRow cutoff).evolves rfl le_rfl

theorem Place.tables (p : Place) (hw : Tables w) : Tables (p.next env w).2 := by
  cases p with
  | done | find | age | stamp | mint | issue => exact hw
  | claim r row usedAt => exact (gentle_claimRow row.id usedAt).tables hw rfl rfl
  | mintAt | elapse => exact ⟨hw.ids, hw.codes, hw.fresh, hw.spent⟩
  | issueAt c apiToken createdAt => exact hw.insertCode (fun _ => rfl) fun _ => rfl
  | sweep s caller =>
    cases s with
    | begin | select | stamp => exact hw
    | revoke => exact ⟨hw.ids, hw.codes, hw.fresh, hw.spent⟩
    | scrub cutoff => exact (gentle_scrubRow cutoff).tables hw rfl rfl

/-! ### What a request knows -/

/-- The row that a request has read, and the checks it has passed. -/
structure Knows (r : TokenRequest) (row : AuthorizationCode) (w : World) : Prop where
  stored : ∃ c ∈ w.codes, Kept row c
  code : row.code = r.code
  redirect : r.redirectUri = [] ∨ r.redirectUri = row.redirectUri
  unused : row.usedAt = none

theorem Knows.evolves {r : TokenRequest} {row : AuthorizationCode} (h : Knows r row w)
    (hw : Evolves w w') : Knows r row w' where
  stored := by
    obtain ⟨c, hc, hkept⟩ := h.stored
    obtain ⟨c', hc', hkept'⟩ := hw.codes c hc
    exact ⟨c', hc', hkept.trans hkept'⟩
  code := h.code
  redirect := h.redirect
  unused := h.unused

/-- The code of a request has been used. -/
def Spent (code : Str) (w : World) : Prop :=
  ∃ c ∈ w.codes, c.code = code ∧ c.usedAt ≠ none ∧ c.rawKey = []

theorem Spent.evolves {code : Str} (h : Spent code w) (hw : Evolves w w') : Spent code w' := by
  obtain ⟨c, hc, hcode, hused, hkey⟩ := h
  obtain ⟨c', hc', hkept⟩ := hw.codes c hc
  have heq : c' = c := hkept.used hused
  exact ⟨c', hc', heq ▸ hcode, heq ▸ hused, heq ▸ hkey⟩

/-- What holds at a place. -/
def Holds (env : Env) (w : World) (job : Job) : Place → Prop
  | .done (.issued _ _) => ∃ r, job = .token r ∧ Spent r.code w
  | .find r => job = .token r
  | .age r row => job = .token r ∧ Knows r row w
  | .stamp r row | .claim r row _ =>
      job = .token r ∧ Knows r row w ∧ env.s256 r.codeVerifier = row.codeChallenge
  | _ => True

theorem Holds.evolves {job : Job} {p : Place} (h : Holds env w job p) (hw : Evolves w w') :
    Holds env w' job p := by
  cases p with
  | mint | mintAt | sweep | issue | issueAt | elapse => exact trivial
  | find r => exact h
  | age r row => exact ⟨h.1, h.2.evolves hw⟩
  | stamp r row | claim r row usedAt => exact ⟨h.1, h.2.1.evolves hw, h.2.2⟩
  | done a =>
    cases a with
    | badRequest | redirect | swept | elapsed | raised => exact trivial
    | issued key scope =>
      obtain ⟨r, hjob, hspent⟩ := h
      exact ⟨r, hjob, hspent.evolves hw⟩

/-- A key has been given. -/
def Place.Issues (p : Place) : Prop := ∃ key scope, p = .done (.issued key scope)

/-- Two requests that have been given a key had different codes. -/
def Apart (job : Job) (p : Place) (job' : Job) (q : Place) : Prop :=
  p.Issues → q.Issues → ∀ r r', job = .token r → job' = .token r' → r.code ≠ r'.code

theorem verifyPkce_ok {verifier challenge : Str}
    (h : verifyPkce env verifier challenge "S256".toList = .ok true) :
    env.s256 verifier = challenge := by
  simp only [verifyPkce] at h
  by_cases hempty : verifier = [] ∨ challenge = []
  · simp [hempty] at h
  · by_cases hverifier : isAscii verifier = true
    · by_cases hchallenge : isAscii challenge = true
      · simpa [hempty, hverifier, hchallenge] using h
      · simp [hempty, hverifier, hchallenge] at h
    · simp [hempty, hverifier] at h

theorem rowPlace_cases (r : TokenRequest) (row : AuthorizationCode) :
    (∃ d, rowPlace r row = .done (invalidGrant d)) ∨
      (rowPlace r row = .age r row ∧ (r.redirectUri = [] ∨ r.redirectUri = row.redirectUri) ∧
        row.usedAt = none) := by
  rw [rowPlace]
  by_cases hredirect : r.redirectUri ≠ [] ∧ r.redirectUri ≠ row.redirectUri
  · rw [if_pos hredirect]
    exact .inl ⟨_, rfl⟩
  · rw [if_neg hredirect]
    by_cases hused : row.usedAt ≠ none
    · rw [if_pos hused]
      exact .inl ⟨_, rfl⟩
    · rw [if_neg hused]
      refine .inr ⟨rfl, ?_, not_not.mp hused⟩
      by_cases hnil : r.redirectUri = []
      · exact .inl hnil
      · exact .inr (not_not.mp fun hne => hredirect ⟨hnil, hne⟩)

theorem agePlace_cases (env : Env) (r : TokenRequest) (row : AuthorizationCode) (now : ℤ) :
    (agePlace env r row now = .sweep .begin .expired ∧ env.life < now - row.createdAt) ∨
      (∃ a, agePlace env r row now = .done a ∧ ∀ key scope, a ≠ .issued key scope) ∨
        (agePlace env r row now = .stamp r row ∧ now - row.createdAt ≤ env.life ∧
          env.s256 r.codeVerifier = row.codeChallenge) := by
  rw [agePlace]
  by_cases hold : env.life < now - row.createdAt
  · rw [if_pos hold]
    exact .inl ⟨rfl, hold⟩
  · rw [if_neg hold, pkcePlace]
    cases hverify : verifyPkce env r.codeVerifier row.codeChallenge "S256".toList with
    | error e => exact .inr (.inl ⟨_, rfl, by intro _ _ h; cases h⟩)
    | ok verified =>
      cases verified with
      | false => exact .inr (.inl ⟨_, rfl, by intro _ _ h; cases h⟩)
      | true => exact .inr (.inr ⟨rfl, not_lt.mp hold, verifyPkce_ok hverify⟩)

theorem callerPlace_ne (caller : Caller) (count : ℕ) (key scope : Str) :
    caller.place count ≠ .done (.issued key scope) := by
  intro h
  cases caller <;> cases h

/-- A key is given where a row nobody has used is claimed. -/
theorem issues_next {p : Place} {key scope : Str} (hp : p ≠ .done (.issued key scope))
    (h : (p.next env w).1 = .done (.issued key scope)) :
    ∃ r row usedAt, p = .claim r row usedAt ∧ (OAuth.claim row.id usedAt w).1 ≠ 0 ∧
      row.rawKey ≠ [] ∧ key = row.rawKey := by
  cases p with
  | stamp | mint | mintAt | issue | elapse => cases h
  | done a =>
    exact absurd h hp
  | find r =>
    have hfound : foundPlace r (findCode r.code w) = .done (.issued key scope) := h
    cases hrow : findCode r.code w with
    | none =>
      rw [hrow] at hfound
      cases hfound
    | some row =>
      rw [hrow, foundPlace] at hfound
      rcases rowPlace_cases r row with ⟨d, hd⟩ | ⟨hage, -⟩
      · rw [hd] at hfound
        cases hfound
      · rw [hage] at hfound
        cases hfound
  | age r row =>
    have hage : agePlace env r row w.now = .done (.issued key scope) := h
    rcases agePlace_cases env r row w.now with ⟨hsweep, -⟩ | ⟨a, ha, hne⟩ | ⟨hstamp, -⟩
    · rw [hsweep] at hage
      cases hage
    · rw [ha] at hage
      exact absurd (Place.done.inj hage) (hne key scope)
    · rw [hstamp] at hage
      cases hage
  | claim r row usedAt =>
    have hanswer : claimAnswer row (OAuth.claim row.id usedAt w).1 = .issued key scope :=
      Place.done.inj h
    rw [claimAnswer] at hanswer
    by_cases hnone : (OAuth.claim row.id usedAt w).1 = 0
    · rw [if_pos hnone] at hanswer
      cases hanswer
    · rw [if_neg hnone] at hanswer
      by_cases hkey : row.rawKey = []
      · rw [if_pos hkey] at hanswer
        cases hanswer
      · rw [if_neg hkey] at hanswer
        cases hanswer
        exact ⟨r, row, usedAt, rfl, hnone, hkey, rfl⟩
  | issueAt c apiToken createdAt =>
    have hanswer : issueAnswer c (insertCode (newCode c apiToken createdAt) w).1 =
        .issued key scope := Place.done.inj h
    rw [issueAnswer] at hanswer
    by_cases hinserted : (insertCode (newCode c apiToken createdAt) w).1 = true
    · rw [if_pos hinserted] at hanswer
      cases hanswer
    · rw [if_neg hinserted] at hanswer
      cases hanswer
  | sweep s caller =>
    cases s with
    | begin | stamp | revoke => cases h
    | select cutoff =>
      have hselect : selectPlace caller cutoff (staleTokens cutoff w) =
          .done (.issued key scope) := h
      rw [selectPlace] at hselect
      by_cases hnil : staleTokens cutoff w = []
      · rw [if_pos hnil] at hselect
        exact absurd hselect (callerPlace_ne _ _ _ _)
      · rw [if_neg hnil] at hselect
        cases hselect
    | scrub cutoff => exact absurd h (callerPlace_ne _ _ _ _)

/-- A claim that takes effect takes a row that nobody has used. -/
theorem claim_takes {pk : ℕ} {usedAt : ℤ} (h : (OAuth.claim pk usedAt w).1 ≠ 0) :
    ∃ c ∈ w.codes, c.id = pk ∧ c.usedAt = none := by
  obtain ⟨c, hc⟩ := List.exists_mem_of_ne_nil _ (List.ne_nil_of_length_pos (Nat.pos_of_ne_zero h))
  rw [List.mem_filter] at hc
  refine ⟨c, hc.1, ?_, ?_⟩
  · have hboth := hc.2
    simp only [Bool.and_eq_true, decide_eq_true_eq] at hboth
    exact hboth.1
  · have hboth := hc.2
    simp only [Bool.and_eq_true, Option.isNone_iff_eq_none] at hboth
    exact hboth.2

/-- The row of a claim that takes effect is the one the request has read. -/
theorem Knows.claimed {r : TokenRequest} {row : AuthorizationCode} {usedAt : ℤ}
    (h : Knows r row w) (hw : Tables w) (hclaim : (OAuth.claim row.id usedAt w).1 ≠ 0) :
    ∃ c ∈ w.codes, Kept row c ∧ c.code = r.code ∧ c.usedAt = none ∧
      claimRow row.id usedAt c = { c with usedAt := some usedAt, rawKey := [] } := by
  obtain ⟨c, hc, hkept⟩ := h.stored
  obtain ⟨c', hc', hid, hunused⟩ := claim_takes hclaim
  have hsame : c' = c := by
    apply hw.ids.eq_of_key hc' hc
    exact hid.trans (id_of_face hkept.face).symm
  subst hsame
  refine ⟨c', hc, hkept, (code_of_face hkept.face).trans h.code, hunused, ?_⟩
  rw [claimRow, if_pos]
  simp [hid, hunused]

theorem Knows.spends {r : TokenRequest} {row : AuthorizationCode} {usedAt : ℤ}
    (h : Knows r row w) (hw : Tables w) (hclaim : (OAuth.claim row.id usedAt w).1 ≠ 0) :
    Spent r.code (OAuth.claim row.id usedAt w).2 := by
  obtain ⟨c, hc, -, hcode, -, hrow⟩ := h.claimed hw hclaim
  refine ⟨claimRow row.id usedAt c, List.mem_map_of_mem hc, ?_, ?_, ?_⟩
  · rw [hrow]
    exact hcode
  · rw [hrow]
    exact Option.some_ne_none _
  · rw [hrow]

theorem holds_caller {job : Job} (caller : Caller) (count : ℕ) :
    Holds env w job (caller.place count) := by
  cases caller <;> exact trivial

theorem Holds.next {job : Job} {p : Place} (h : Holds env w job p) (hw : Tables w) :
    Holds env (p.next env w).2 job (p.next env w).1 := by
  cases p with
  | mint | mintAt | issue | elapse => exact trivial
  | done a => exact h
  | stamp r row => exact h
  | find r =>
    show Holds env w job (foundPlace r (findCode r.code w))
    cases hfound : findCode r.code w with
    | none => exact trivial
    | some row =>
      rw [foundPlace]
      rcases rowPlace_cases r row with ⟨d, hd⟩ | ⟨hage, hredirect, hunused⟩
      · rw [hd]
        exact trivial
      · rw [hage]
        exact ⟨h, ⟨row, Table.get_mem hfound, Kept.refl row⟩, Table.key_of_get hfound,
          hredirect, hunused⟩
  | age r row =>
    show Holds env w job (agePlace env r row w.now)
    rcases agePlace_cases env r row w.now with ⟨hsweep, -⟩ | ⟨a, ha, hne⟩ | ⟨hstamp, -, hkey⟩
    · rw [hsweep]
      exact trivial
    · rw [ha]
      cases a with
      | issued key scope => exact absurd rfl (hne key scope)
      | badRequest | redirect | swept | elapsed | raised => exact trivial
    · rw [hstamp]
      exact ⟨h.1, h.2, hkey⟩
  | claim r row usedAt =>
    cases hnext : ((Place.claim r row usedAt).next env w).1 with
    | done a =>
      cases a with
      | badRequest | redirect | swept | elapsed | raised => exact trivial
      | issued key scope =>
        have hnot : Place.claim r row usedAt ≠ .done (.issued key scope) := by
          intro heq
          cases heq
        obtain ⟨r', row', usedAt', heq, hclaim, -, -⟩ := issues_next hnot hnext
        cases heq
        exact ⟨r, h.1, h.2.1.spends hw hclaim⟩
    | find | age | stamp | claim | mint | mintAt | sweep | issue | issueAt | elapse => cases hnext
  | issueAt c apiToken createdAt =>
    show Holds env _ job (.done (issueAnswer c _))
    rw [issueAnswer]
    by_cases hinserted : (insertCode (newCode c apiToken createdAt) w).1 = true
    · rw [if_pos hinserted]
      exact trivial
    · rw [if_neg hinserted]
      exact trivial
  | sweep s caller =>
    cases s with
    | begin | stamp | revoke => exact trivial
    | scrub cutoff => exact holds_caller caller _
    | select cutoff =>
      show Holds env w job (selectPlace caller cutoff (staleTokens cutoff w))
      rw [selectPlace]
      by_cases hnil : staleTokens cutoff w = []
      · rw [if_pos hnil]
        exact holds_caller caller _
      · rw [if_neg hnil]
        exact trivial

/-- The key of a code that has been used is given to nobody else. -/
theorem Apart.next {job job' : Job} {p q : Place} (h : Apart job p job' q) (hw : Tables w)
    (hp : Holds env w job p) (hq : Holds env w job' q) : Apart job (p.next env w).1 job' q := by
  intro hissues hissued r r' hr hr' hcode
  by_cases hbefore : p.Issues
  · exact h hbefore hissued r r' hr hr' hcode
  · obtain ⟨key, scope, hnext⟩ := hissues
    have hnot : p ≠ .done (.issued key scope) := fun heq => hbefore ⟨key, scope, heq⟩
    obtain ⟨r₁, row, usedAt, rfl, hclaim, -, -⟩ := issues_next hnot hnext
    obtain ⟨key', scope', rfl⟩ := hissued
    obtain ⟨hjob, hknows, -⟩ := hp
    obtain ⟨r₂, hjob', c', hc', hcode', hused, -⟩ := hq
    have heq : r₁ = r := Job.token.inj (hjob.symm.trans hr)
    have heq' : r₂ = r' := Job.token.inj (hjob'.symm.trans hr')
    subst heq
    subst heq'
    obtain ⟨c, hc, -, hclaimed, hunused, -⟩ := hknows.claimed hw hclaim
    have hsame : c' = c := by
      apply hw.codes.eq_of_key hc' hc
      rw [hcode', hclaimed, hcode]
    exact hused (hsame ▸ hunused)

theorem Apart.symm {job job' : Job} {p q : Place} (h : Apart job p job' q) :
    Apart job' q job p :=
  fun hq hp r r' hr hr' => (h hp hq r' r hr' hr).symm

/-- Where requests begin. -/
theorem enter_cases (env : Env) (job : Job) :
    (∃ a, enter env job = .done a ∧ ∀ key scope, a ≠ .issued key scope) ∨
      (∃ c, job = .authorize c ∧ enter env job = .mint c) ∨
        (∃ r, job = .token r ∧ enter env job = .find r) ∨
          (job = .sweep ∧ enter env job = .sweep .begin .alone) ∨
            ∃ n, job = .elapse n ∧ enter env job = .elapse n := by
  cases job with
  | sweep => exact .inr (.inr (.inr (.inl ⟨rfl, rfl⟩)))
  | elapse n => exact .inr (.inr (.inr (.inr ⟨n, rfl, rfl⟩)))
  | authorize c =>
    rw [enter]
    by_cases hsafe : ¬ env.isSafeRedirectUri c.redirectUri
    · rw [if_pos hsafe]
      exact .inl ⟨_, rfl, by intro _ _ h; cases h⟩
    · rw [if_neg hsafe]
      by_cases hallow : c.decision ≠ "allow".toList
      · rw [if_pos hallow]
        exact .inl ⟨_, rfl, by intro _ _ h; cases h⟩
      · rw [if_neg hallow]
        exact .inr (.inl ⟨c, rfl, rfl⟩)
  | token r =>
    rw [enter]
    by_cases hgrant : r.grantType ≠ "authorization_code".toList
    · rw [if_pos hgrant]
      exact .inl ⟨_, rfl, by intro _ _ h; cases h⟩
    · rw [if_neg hgrant]
      exact .inr (.inr (.inl ⟨r, rfl, rfl⟩))

theorem enter_not_issues (env : Env) (job : Job) : ¬ (enter env job).Issues := by
  intro h
  obtain ⟨key, scope, h⟩ := h
  rcases enter_cases env job with ⟨a, ha, hne⟩ | ⟨c, -, hc⟩ | ⟨r, -, hr⟩ | ⟨-, hs⟩ | ⟨n, -, hn⟩
  · rw [ha] at h
    exact hne key scope (Place.done.inj h)
  · rw [hc] at h
    cases h
  · rw [hr] at h
    cases h
  · rw [hs] at h
    cases h
  · rw [hn] at h
    cases h

theorem holds_enter (env : Env) (w : World) (job : Job) : Holds env w job (enter env job) := by
  rcases enter_cases env job with ⟨a, ha, hne⟩ | ⟨c, -, hc⟩ | ⟨r, hjob, hr⟩ | ⟨-, hs⟩ | ⟨n, -, hn⟩
  · rw [ha]
    cases a with
    | issued key scope => exact absurd rfl (hne key scope)
    | badRequest | redirect | swept | elapsed | raised => exact trivial
  · rw [hc]
    exact trivial
  · rw [hr]
    exact hjob
  · rw [hs]
    exact trivial
  · rw [hn]
    exact trivial

/-- What holds of the tables and of all requests. -/
abbrev Sound (env : Env) : Server Job Place World → Prop :=
  Server.Invariant Tables (Holds env) Apart

theorem Sound.step {y : Server Job Place World} (h : Sound env y) (turn : Turn Job) :
    Sound env (y.step (enter env) (Place.next env) turn) := by
  cases turn with
  | start job =>
    apply Server.Invariant.start h fun _ _ _ _ => Apart.symm
    · exact holds_enter env y.state job
    · intro j job' q _ hissues
      exact absurd hissues (enter_not_issues env job)
  | run i =>
    apply Server.Invariant.run h fun _ _ _ _ => Apart.symm
    intro job p hi
    exact
      { state := p.tables h.state
        own := (h.request hi).next h.state
        other := fun _ hj => (h.request hj).evolves (p.evolves y.state)
        pair := fun hij hj =>
          (h.pair hij hi hj).next h.state (h.request hi) (h.request hj) }

theorem sound_site (env : Env) (now : ℤ) (turns : List (Turn Job)) :
    Sound env (Site env now turns) := by
  induction turns using List.reverseRecOn with
  | nil =>
    refine ⟨⟨List.nodup_nil, List.nodup_nil, ?_, ?_⟩, ?_, ?_⟩
    · exact fun c hc => absurd hc List.not_mem_nil
    · exact fun c hc => absurd hc List.not_mem_nil
    · intro i job p hi
      cases hi
    · intro i j job p job' q _ hi
      cases hi
  | append_singleton turns turn ih =>
    rw [Site, Server.run_concat]
    exact ih.step turn

/-! ### What an answer says of the run before it -/

theorem program_eq_ret {p : Place} {a : Answer} (h : p.program env = .ret a) : p = .done a := by
  cases p with
  | done b => exact congrArg Place.done (Prog.ret.inj h)
  | find | age | stamp | claim | mint | mintAt | issue | issueAt | elapse => cases h
  | sweep s caller => cases s <;> cases h

theorem answered_place {now : ℤ} {turns : List (Turn Job)} {i : ℕ} {job : Job} {a : Answer}
    (h : (served env now turns).Answered i job a) :
    (Site env now turns).requests[i]? = some (job, .done a) := by
  rw [Server.Answered, served_eq, Server.requests_map] at h
  obtain ⟨⟨job', p⟩, hp, heq⟩ := Option.map_eq_some_iff.mp h
  obtain ⟨rfl, hprogram⟩ := Prod.mk.inj heq
  have hdone : p = .done a := program_eq_ret hprogram
  rw [hp, hdone]

theorem state_served (env : Env) (now : ℤ) (turns : List (Turn Job)) :
    (served env now turns).state = (Site env now turns).state := by
  rw [served_eq]
  rfl

theorem site_crossed {B : Place → Prop} (henter : ∀ job, ¬ B (enter env job)) {now : ℤ}
    {turns : List (Turn Job)} {i : ℕ} {job : Job} {p : Place}
    (h : (Site env now turns).requests[i]? = some (job, p)) (hB : B p) :
    ∃ earlier later q, turns = earlier ++ .run i :: later ∧
      (Site env now earlier).requests[i]? = some (job, q) ∧ ¬ B q ∧
        B (q.next env (Site env now earlier).state).1 := by
  apply Server.crossed henter ?_ h hB
  intro job p hi
  simp at hi

/-- A request is behind the age check with a row. -/
def Place.Checked (row : AuthorizationCode) : Place → Prop
  | .stamp _ row' | .claim _ row' _ => row' = row
  | _ => False

theorem checked_caller (row : AuthorizationCode) (caller : Caller) (count : ℕ) :
    ¬ (caller.place count).Checked row := by
  cases caller <;> exact id

theorem checked_next {row : AuthorizationCode} {p : Place} (hp : ¬ p.Checked row)
    (h : (p.next env w).1.Checked row) :
    ∃ r, p = .age r row ∧ w.now - row.createdAt ≤ env.life := by
  cases p with
  | done | claim | mint | mintAt | issue | issueAt | elapse => exact h.elim
  | stamp r row' => exact absurd h hp
  | find r =>
    have hfound : (foundPlace r (findCode r.code w)).Checked row := h
    cases hrow : findCode r.code w with
    | none =>
      rw [hrow] at hfound
      exact hfound.elim
    | some row' =>
      rw [hrow, foundPlace] at hfound
      rcases rowPlace_cases r row' with ⟨d, hd⟩ | ⟨hage, -⟩
      · rw [hd] at hfound
        exact hfound.elim
      · rw [hage] at hfound
        exact hfound.elim
  | age r row' =>
    have hage : (agePlace env r row' w.now).Checked row := h
    rcases agePlace_cases env r row' w.now with ⟨hsweep, -⟩ | ⟨a, ha, -⟩ | ⟨hstamp, hlife, -⟩
    · rw [hsweep] at hage
      exact hage.elim
    · rw [ha] at hage
      exact hage.elim
    · rw [hstamp] at hage
      have hrow : row' = row := hage
      subst hrow
      exact ⟨r, rfl, hlife⟩
  | sweep s caller =>
    cases s with
    | begin | stamp | revoke => exact h.elim
    | scrub cutoff => exact absurd h (checked_caller row caller _)
    | select cutoff =>
      have hselect : (selectPlace caller cutoff (staleTokens cutoff w)).Checked row := h
      rw [selectPlace] at hselect
      by_cases hnil : staleTokens cutoff w = []
      · rw [if_pos hnil] at hselect
        exact absurd hselect (checked_caller row caller _)
      · rw [if_neg hnil] at hselect
        exact hselect.elim

/-- A request holds a row it has read. -/
def Place.Has (row : AuthorizationCode) : Place → Prop
  | .age _ row' | .stamp _ row' | .claim _ row' _ => row' = row
  | _ => False

theorem has_caller (row : AuthorizationCode) (caller : Caller) (count : ℕ) :
    ¬ (caller.place count).Has row := by
  cases caller <;> exact id

theorem has_next {row : AuthorizationCode} {p : Place} (hp : ¬ p.Has row)
    (h : (p.next env w).1.Has row) : row ∈ w.codes := by
  cases p with
  | done | claim | mint | mintAt | issue | issueAt | elapse => exact h.elim
  | stamp r row' => exact absurd h hp
  | find r =>
    have hfound : (foundPlace r (findCode r.code w)).Has row := h
    cases hrow : findCode r.code w with
    | none =>
      rw [hrow] at hfound
      exact hfound.elim
    | some row' =>
      rw [hrow, foundPlace] at hfound
      rcases rowPlace_cases r row' with ⟨d, hd⟩ | ⟨hage, -⟩
      · rw [hd] at hfound
        exact hfound.elim
      · rw [hage] at hfound
        have heq : row' = row := hfound
        exact heq ▸ Table.get_mem hrow
  | age r row' =>
    have hage : (agePlace env r row' w.now).Has row := h
    rcases agePlace_cases env r row' w.now with ⟨hsweep, -⟩ | ⟨a, ha, -⟩ | ⟨hstamp, -⟩
    · rw [hsweep] at hage
      exact hage.elim
    · rw [ha] at hage
      exact hage.elim
    · rw [hstamp] at hage
      exact absurd hage hp
  | sweep s caller =>
    cases s with
    | begin | stamp | revoke => exact h.elim
    | scrub cutoff => exact absurd h (has_caller row caller _)
    | select cutoff =>
      have hselect : (selectPlace caller cutoff (staleTokens cutoff w)).Has row := h
      rw [selectPlace] at hselect
      by_cases hnil : staleTokens cutoff w = []
      · rw [if_pos hnil] at hselect
        exact absurd hselect (has_caller row caller _)
      · rw [if_neg hnil] at hselect
        exact hselect.elim

/-- How a request has earned a key: it has read the row that held it, for its own code, it has
brought the verifier of the stored challenge and no other redirect URI, and when it checked the
age of the code, the code was alive. -/
structure Earned (env : Env) (now : ℤ) (turns : List (Turn Job)) (i : ℕ) (r : TokenRequest)
    (key : Str) (row : AuthorizationCode) : Prop where
  read : ∃ earlier later, turns = earlier ++ .run i :: later ∧
    row ∈ (served env now earlier).state.codes
  code : row.code = r.code
  key : row.rawKey = key
  holder : env.s256 r.codeVerifier = row.codeChallenge
  redirect : r.redirectUri = [] ∨ r.redirectUri = row.redirectUri
  alive : ∃ earlier later, turns = earlier ++ .run i :: later ∧
    (served env now earlier).requests[i]? = some (.token r, checkAge env r row) ∧
      (served env now earlier).state.now - row.createdAt ≤ env.life

theorem enter_ne_issued (env : Env) (job : Job) (key scope : Str) :
    enter env job ≠ .done (.issued key scope) :=
  fun h => enter_not_issues env job ⟨key, scope, h⟩

theorem enter_not_has (env : Env) (row : AuthorizationCode) (job : Job) :
    ¬ (enter env job).Has row := by
  intro h
  rcases enter_cases env job with ⟨a, ha, -⟩ | ⟨c, -, hc⟩ | ⟨r, -, hr⟩ | ⟨-, hs⟩ | ⟨n, -, hn⟩
  · rw [ha] at h
    exact h.elim
  · rw [hc] at h
    exact h.elim
  · rw [hr] at h
    exact h.elim
  · rw [hs] at h
    exact h.elim
  · rw [hn] at h
    exact h.elim

theorem Place.Checked.has {row : AuthorizationCode} {p : Place} (h : p.Checked row) :
    p.Has row := by
  cases p with
  | done | find | age | mint | mintAt | sweep | issue | issueAt | elapse => exact h.elim
  | stamp | claim => exact h

theorem earned {now : ℤ} {turns : List (Turn Job)} {i : ℕ} {job : Job} {key scope : Str}
    (h : (Site env now turns).requests[i]? = some (job, .done (.issued key scope))) :
    ∃ r row, job = .token r ∧ Earned env now turns i r key row := by
  -- the claim, the age check and the reading of the row, from the last to the first
  obtain ⟨toClaim, afterClaim, q, rfl, hq, hne, hissued⟩ :=
    site_crossed (B := fun p => p = .done (.issued key scope))
      (fun job => enter_ne_issued env job key scope) h rfl
  obtain ⟨r, row, usedAt, rfl, -, -, rfl⟩ := issues_next hne hissued
  obtain ⟨hjob, hknows, hholder⟩ := (sound_site env now toClaim).request hq
  obtain ⟨toAge, afterAge, q, rfl, hage, hnot, hchecked⟩ :=
    site_crossed (B := Place.Checked row) (fun job hjob => enter_not_has env row job hjob.has) hq rfl
  obtain ⟨r', rfl, halive⟩ := checked_next hnot hchecked
  obtain ⟨toRead, afterRead, q, rfl, -, hnot, hhas⟩ :=
    site_crossed (B := Place.Has row) (enter_not_has env row) hage rfl
  have hr : r' = r := by
    have hjob' : job = .token r' := ((sound_site env now _).request hage).1
    exact Job.token.inj (hjob'.symm.trans hjob)
  subst hr
  refine ⟨r', row, hjob, ?_⟩
  exact
    { read := by
        refine ⟨toRead, afterRead ++ .run i :: (afterAge ++ .run i :: afterClaim), ?_, ?_⟩
        · simp only [List.append_assoc, List.cons_append]
        · rw [state_served]
          exact has_next hnot hhas
      code := hknows.code
      key := rfl
      holder := hholder
      redirect := hknows.redirect
      alive := by
        refine ⟨toRead ++ .run i :: afterRead, afterAge ++ .run i :: afterClaim, ?_, ?_, ?_⟩
        · simp only [List.append_assoc, List.cons_append]
        · rw [served_eq, Server.requests_map, hage, hjob]
          rfl
        · rw [state_served]
          exact halive }

/-- **One delivery for each code.** Of all the requests for a code one at most is given its key,
it has earned it, and from then on the code is spent. -/
theorem codes_delivered_once (env : Env) (now : ℤ) (turns : List (Turn Job)) :
    (∀ i j r r' key key' scope scope',
      (served env now turns).Answered i (.token r) (.issued key scope) →
      (served env now turns).Answered j (.token r') (.issued key' scope') →
        r.code = r'.code → i = j) ∧
    ∀ i job key scope, (served env now turns).Answered i job (.issued key scope) →
      ∃ r row, job = .token r ∧ Earned env now turns i r key row ∧
        ∀ later, Spent r.code (served env now (turns ++ later)).state := by
  constructor
  · intro i j r r' key key' scope scope' hi hj hcode
    by_contra hne
    exact (sound_site env now turns).pair hne (answered_place hi) (answered_place hj)
      ⟨key, scope, rfl⟩ ⟨key', scope', rfl⟩ r r' rfl rfl hcode
  · intro i job key scope hi
    obtain ⟨r, row, rfl, hearned⟩ := earned (answered_place hi)
    refine ⟨r, row, rfl, hearned, ?_⟩
    intro later
    have hlater : (served env now (turns ++ later)).Answered i (.token r) (.issued key scope) := by
      rw [served, serve, Server.run_append]
      exact Server.Answered.run hi later
    obtain ⟨r', hr', hspent⟩ := (sound_site env now (turns ++ later)).request (answered_place hlater)
    rw [state_served, Job.token.inj hr']
    exact hspent

end CwStation.OAuth
