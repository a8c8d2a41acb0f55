import CwStation.Verification.OAuth.Delivery

/-! # Sweeps beside redemptions

A sweep picks its tokens in one statement and deactivates them in another, and a claim asks
neither for the age of the code nor for its key. As long as no claim takes a code that a sweep
has picked, keys that are given out stay good and codes that nobody has come for lose theirs. -/

namespace CwStation.OAuth

open Auth Requests Threads

variable {env : Env} {w w' : World}

/-! ### Tokens -/

def Active (w : World) (id : ℕ) : Prop := ∃ t ∈ w.tokens, t.id = id ∧ t.isActive = true

instance instDecidableActive (w : World) (id : ℕ) : Decidable (Active w id) :=
  inferInstanceAs (Decidable (∃ t ∈ w.tokens, t.id = id ∧ t.isActive = true))

/-- What a token is, whether or not it is still good. -/
def tokenFace (t : ApiToken) : ApiToken := { t with isActive := true, revokedAt := none }

/-- A token for a key of an authorization code. -/
structure Fits (env : Env) (key : Str) (t : ApiToken) : Prop where
  oauth : t.tokenType = .oauth
  hashed : key ≠ [] → t.hashedKey = env.sha256 key ∧ t.keyPrefix = keyPrefix key

theorem Fits.of_face {key : Str} {t t' : ApiToken} (h : Fits env key t)
    (hface : tokenFace t' = tokenFace t) : Fits env key t' where
  oauth := (congrArg ApiToken.tokenType hface).trans h.oauth
  hashed hkey := by
    obtain ⟨hhashed, hprefix⟩ := h.hashed hkey
    exact ⟨(congrArg ApiToken.hashedKey hface).trans hhashed,
      (congrArg ApiToken.keyPrefix hface).trans hprefix⟩

/-- The token of a row is there. -/
def Linked (env : Env) (w : World) (id : ℕ) (key : Str) : Prop :=
  ∃ t ∈ w.tokens, t.id = id ∧ Fits env key t

/-- Tokens stay, and none comes back. -/
structure Wanes (w w' : World) : Prop where
  tokens : ∀ t ∈ w.tokens, ∃ t' ∈ w'.tokens, tokenFace t' = tokenFace t
  next : w.nextToken ≤ w'.nextToken
  active : ∀ id < w.nextToken, Active w' id → Active w id

theorem Wanes.refl (w : World) : Wanes w w := ⟨fun t ht => ⟨t, ht, rfl⟩, le_rfl, fun _ _ => id⟩

theorem Wanes.trans {w'' : World} (h : Wanes w w') (h' : Wanes w' w'') : Wanes w w'' where
  tokens t ht := by
    obtain ⟨t', ht', hface⟩ := h.tokens t ht
    obtain ⟨t'', ht'', hface'⟩ := h'.tokens t' ht'
    exact ⟨t'', ht'', hface'.trans hface⟩
  next := h.next.trans h'.next
  active id hid hactive := h.active id hid (h'.active id (lt_of_lt_of_le hid h.next) hactive)

theorem Wanes.of_tokens (htokens : w'.tokens = w.tokens) (hnext : w'.nextToken = w.nextToken) :
    Wanes w w' where
  tokens t ht := ⟨t, htokens ▸ ht, rfl⟩
  next := hnext.ge
  active id _ hactive := by
    rw [Active, htokens] at hactive
    exact hactive

theorem Linked.wanes {id : ℕ} {key : Str} (h : Linked env w id key) (hw : Wanes w w') :
    Linked env w' id key := by
  obtain ⟨t, ht, hid, hfits⟩ := h
  obtain ⟨t', ht', hface⟩ := hw.tokens t ht
  exact ⟨t', ht', (congrArg ApiToken.id hface).trans hid, hfits.of_face hface⟩

/-- The deactivation of one token. -/
def revokeRow (tokenIds : List ℕ) (revokedAt : ℤ) (t : ApiToken) : ApiToken :=
  if revokes tokenIds t then { t with isActive := false, revokedAt := some revokedAt } else t

theorem revokeRow_face (tokenIds : List ℕ) (revokedAt : ℤ) (t : ApiToken) :
    tokenFace (revokeRow tokenIds revokedAt t) = tokenFace t := by
  rw [revokeRow]
  by_cases hrevoked : revokes tokenIds t = true
  · rw [if_pos hrevoked]
    rfl
  · rw [if_neg hrevoked]

theorem revokeRow_id (tokenIds : List ℕ) (revokedAt : ℤ) (t : ApiToken) :
    (revokeRow tokenIds revokedAt t).id = t.id :=
  congrArg (fun t => t.id) (revokeRow_face tokenIds revokedAt t)

theorem wanes_revoke (tokenIds : List ℕ) (revokedAt : ℤ) (w : World) :
    Wanes w (revokeTokens (revokes tokenIds) revokedAt w) where
  tokens t ht :=
    ⟨revokeRow tokenIds revokedAt t, List.mem_map_of_mem ht, revokeRow_face tokenIds revokedAt t⟩
  next := le_rfl
  active id _ hactive := by
    obtain ⟨t', ht', hid, hgood⟩ := hactive
    obtain ⟨t, ht, rfl⟩ := List.mem_map.mp ht'
    have hrow : (if revokes tokenIds t then
        { t with isActive := false, revokedAt := some revokedAt } else t) =
          revokeRow tokenIds revokedAt t := rfl
    rw [hrow] at hid hgood
    rw [revokeRow] at hgood
    by_cases hrevoked : revokes tokenIds t = true
    · rw [if_pos hrevoked] at hgood
      cases hgood
    · rw [if_neg hrevoked] at hgood
      exact ⟨t, ht, (revokeRow_id tokenIds revokedAt t).symm.trans hid, hgood⟩

/-- A sweep deactivates the tokens it has picked, and no others. -/
theorem active_revoke {tokenIds : List ℕ} {revokedAt : ℤ} {id : ℕ}
    (hoauth : ∀ t ∈ w.tokens, t.id = id → t.tokenType = .oauth) :
    Active (revokeTokens (revokes tokenIds) revokedAt w) id ↔ Active w id ∧ id ∉ tokenIds := by
  constructor
  · intro hactive
    obtain ⟨t', ht', hid, hgood⟩ := hactive
    obtain ⟨t, ht, rfl⟩ := List.mem_map.mp ht'
    by_cases hrevoked : revokes tokenIds t = true
    · rw [if_pos hrevoked] at hgood
      cases hgood
    · rw [if_neg hrevoked] at hid hgood
      refine ⟨⟨t, ht, hid, hgood⟩, ?_⟩
      intro hmem
      apply hrevoked
      simp [revokes, hid, hmem, hgood, hoauth t ht hid]
  · intro h
    obtain ⟨⟨t, ht, hid, hgood⟩, hnot⟩ := h
    refine ⟨revokeRow tokenIds revokedAt t, List.mem_map_of_mem ht, ?_, ?_⟩
    · rw [revokeRow_id, hid]
    · rw [revokeRow, if_neg]
      · exact hgood
      · simp [revokes, hid, hnot]

theorem wanes_insertToken {row : ℕ → ApiToken} (hid : ∀ id, (row id).id = id) (w : World) :
    Wanes w (insertToken row w).2 where
  tokens t ht := ⟨t, List.mem_append_left _ ht, rfl⟩
  next := Nat.le_succ _
  active id hlt hactive := by
    obtain ⟨t, ht, htid, hgood⟩ := hactive
    rcases List.mem_append.mp ht with ht | ht
    · exact ⟨t, ht, htid, hgood⟩
    · rw [List.mem_singleton.mp ht, hid] at htid
      omega

theorem wanes_insertCode (row : ℕ → AuthorizationCode) (w : World) :
    Wanes w (insertCode row w).2 := by
  by_cases htaken : (w.codes.any fun c => c.code = (row w.nextCode).code) = true
  · rw [insertCode_taken htaken]
    exact Wanes.refl w
  · rw [insertCode_free htaken]
    exact Wanes.of_tokens rfl rfl

theorem Place.wanes (p : Place) (w : World) : Wanes w (p.next env w).2 := by
  cases p with
  | done | find | age | stamp | mint | issue => exact Wanes.refl w
  | claim | elapse => exact Wanes.of_tokens rfl rfl
  | mintAt => exact wanes_insertToken (fun _ => rfl) w
  | issueAt c apiToken createdAt => exact wanes_insertCode _ w
  | sweep s caller =>
    cases s with
    | begin | select | stamp => exact Wanes.refl w
    | revoke cutoff tokenIds revokedAt => exact wanes_revoke tokenIds revokedAt w
    | scrub => exact Wanes.of_tokens rfl rfl

/-! ### When a redemption and a sweep do not meet -/

/-- The tokens a sweep has picked and not deactivated yet. -/
def Place.picked : Place → List ℕ
  | .sweep (.stamp _ tokenIds) _ | .sweep (.revoke _ tokenIds _) _ => tokenIds
  | _ => []

/-- The row a request is about to claim. -/
def Place.claims : Place → Option AuthorizationCode
  | .claim _ row _ => some row
  | _ => none

/-- The creation time a grant is about to insert. -/
def Place.inserts : Place → Option ℤ
  | .issueAt _ _ createdAt => some createdAt
  | _ => none

/-- What a claim and an insertion are to find: the token of an unused code is good and no sweep
has picked it, and a code is inserted before its time is over. -/
def ClearAt (env : Env) (y : Server Job Place World) (p : Place) : Prop :=
  (∀ row ∈ p.claims, (∃ c ∈ y.state.codes, c.id = row.id ∧ c.usedAt = none) →
    Active y.state row.apiToken ∧ ∀ r ∈ y.requests, row.apiToken ∉ r.2.picked) ∧
  ∀ createdAt ∈ p.inserts, y.state.now - createdAt ≤ env.life

instance instDecidableClearAt (env : Env) (y : Server Job Place World) (p : Place) :
    Decidable (ClearAt env y p) :=
  inferInstanceAs (Decidable (_ ∧ _))

/-- Every step of a request is clear. -/
def ClearTurn (env : Env) (y : Server Job Place World) : Turn Job → Prop
  | .start _ => True
  | .run i => ∀ r ∈ y.requests[i]?, ClearAt env y r.2

instance instDecidableClearTurn (env : Env) (y : Server Job Place World) :
    (turn : Turn Job) → Decidable (ClearTurn env y turn)
  | .start _ => inferInstanceAs (Decidable True)
  | .run i => inferInstanceAs (Decidable (∀ r ∈ y.requests[i]?, ClearAt env y r.2))

def ClearFrom (env : Env) : Server Job Place World → List (Turn Job) → Prop
  | _, [] => True
  | y, turn :: turns =>
      ClearTurn env y turn ∧ ClearFrom env (y.step (enter env) (Place.next env) turn) turns

instance instDecidableClearFrom (env : Env) :
    (y : Server Job Place World) → (turns : List (Turn Job)) → Decidable (ClearFrom env y turns)
  | _, [] => inferInstanceAs (Decidable True)
  | y, turn :: turns =>
      have := instDecidableClearFrom env (y.step (enter env) (Place.next env) turn) turns
      inferInstanceAs (Decidable (ClearTurn env y turn ∧ _))

/-- A run all of whose steps are clear. -/
abbrev Clear (env : Env) (now : ℤ) (turns : List (Turn Job)) : Prop :=
  ClearFrom env { state := { now := now } } turns

theorem clearFrom_append {y : Server Job Place World} {turns later : List (Turn Job)}
    (h : ClearFrom env y (turns ++ later)) :
    ClearFrom env y turns ∧
      ClearFrom env (y.run (enter env) (Place.next env) turns) later := by
  induction turns generalizing y with
  | nil => exact ⟨trivial, h⟩
  | cons turn turns ih =>
    obtain ⟨hturn, hrest⟩ := h
    obtain ⟨hturns, hlater⟩ := ih hrest
    exact ⟨⟨hturn, hturns⟩, hlater⟩

/-! ### What holds beside clear steps -/

/-- The two tables together: every code has a token of its own, the tokens of used codes are
good, and those of codes whose key is gone are not. -/
structure Ledger (env : Env) (w : World) : Prop where
  ids : Table.Unique ApiToken.id w.tokens
  fresh : ∀ t ∈ w.tokens, t.id < w.nextToken
  owners : Table.Unique AuthorizationCode.apiToken w.codes
  linked : ∀ c ∈ w.codes, Linked env w c.apiToken c.rawKey
  live : ∀ c ∈ w.codes, c.usedAt ≠ none → Active w c.apiToken
  dead : ∀ c ∈ w.codes, c.usedAt = none → c.rawKey = [] → ¬ Active w c.apiToken

theorem Linked.lt {id : ℕ} {key : Str} (h : Linked env w id key) (hw : Ledger env w) :
    id < w.nextToken := by
  obtain ⟨t, ht, hid, -⟩ := h
  exact hid ▸ hw.fresh t ht

/-- What a sweep knows: its tokens are those of the rows it has found stale, nobody has used
these rows, and in the end their tokens are no longer good. -/
def SweepHolds (env : Env) (w : World) : Sweep → Prop
  | .begin => True
  | .select cutoff => cutoff + env.life ≤ w.now
  | .stamp cutoff tokenIds | .revoke cutoff tokenIds _ =>
      cutoff + env.life ≤ w.now ∧ (∀ c ∈ w.codes, stale cutoff c = true → c.apiToken ∈ tokenIds) ∧
        ∀ c ∈ w.codes, c.apiToken ∈ tokenIds → c.usedAt = none
  | .scrub cutoff =>
      cutoff + env.life ≤ w.now ∧
        ∀ c ∈ w.codes, stale cutoff c = true → ¬ Active w c.apiToken

/-- The token that a grant has minted has no code yet. -/
def Granted (env : Env) (w : World) (c : Consent) (apiToken : ApiToken) : Prop :=
  Linked env w apiToken.id c.rawKey.text ∧ ∀ code ∈ w.codes, code.apiToken ≠ apiToken.id

/-- The token of the key that has been given. -/
def Given (env : Env) (w : World) (r : TokenRequest) (key : Str) : Prop :=
  ∃ c ∈ w.codes, c.code = r.code ∧ c.usedAt ≠ none ∧
    ∃ t ∈ w.tokens, t.id = c.apiToken ∧ t.hashedKey = env.sha256 key ∧ t.keyPrefix = keyPrefix key

def CallerHolds (env : Env) (w : World) : Caller → Prop
  | .grant c apiToken => Granted env w c apiToken
  | _ => True

def Settles (env : Env) (w : World) (job : Job) : Place → Prop
  | .done (.issued key _) => ∃ r, job = .token r ∧ Given env w r key
  | .age _ row | .stamp _ row | .claim _ row _ => Linked env w row.apiToken row.rawKey
  | .sweep s caller => SweepHolds env w s ∧ CallerHolds env w caller
  | .issue c apiToken | .issueAt c apiToken _ => Granted env w c apiToken
  | _ => True

/-- The token a grant has minted and not given a code. -/
def Place.minted : Place → Option ℕ
  | .sweep _ (.grant _ apiToken) | .issue _ apiToken | .issueAt _ apiToken _ => some apiToken.id
  | _ => none

def OwnTokens (_ : Job) (p : Place) (_ : Job) (q : Place) : Prop :=
  ∀ id, p.minted = some id → q.minted ≠ some id

/-! ### What one step makes of the rows -/

/-- What a step makes of a row: used by a claim of its token only, and without a key only if
its token is no longer good. -/
structure Turned (p : Place) (w : World) (c c' : AuthorizationCode) : Prop extends Kept c c' where
  taken : c.usedAt = none → c'.usedAt ≠ none →
    ∃ row ∈ p.claims, row.id = c.id ∧ row.apiToken = c.apiToken
  cleared : c'.usedAt = none → c'.rawKey = [] → c.rawKey = [] ∨ ¬ Active w c.apiToken

/-- A row that a step inserts. -/
structure Inserted (env : Env) (p : Place) (w w' : World) (c : AuthorizationCode) : Prop where
  unused : c.usedAt = none
  key : c.rawKey ≠ []
  minted : p.minted = some c.apiToken
  linked : Linked env w c.apiToken c.rawKey
  young : w'.now - c.createdAt ≤ env.life

structure Change (env : Env) (p : Place) (w w' : World) : Prop where
  evolves : Evolves w w'
  wanes : Wanes w w'
  origin : ∀ c' ∈ w'.codes, (∃ c ∈ w.codes, Turned p w c c') ∨ Inserted env p w w' c'

theorem Turned.refl (p : Place) (w : World) (c : AuthorizationCode) : Turned p w c c where
  toKept := Kept.refl c
  taken hunused hused := absurd hunused hused
  cleared _ hkey := .inl hkey

theorem RawKey.ne_nil (k : RawKey) : k.text ≠ [] := by
  intro hnil
  have hlong : 8 ≤ k.text.length := k.long
  rw [hnil] at hlong
  simp at hlong

theorem stale_iff {cutoff : ℤ} {c : AuthorizationCode} :
    stale cutoff c = true ↔ c.usedAt = none ∧ c.createdAt < cutoff ∧ c.rawKey ≠ [] := by
  simp [stale, and_assoc]

theorem apiToken_of_face {c c' : AuthorizationCode} (h : face c' = face c) :
    c'.apiToken = c.apiToken :=
  congrArg (fun c => c.apiToken) h

theorem createdAt_of_face {c c' : AuthorizationCode} (h : face c' = face c) :
    c'.createdAt = c.createdAt :=
  congrArg (fun c => c.createdAt) h

theorem Kept.unused {c c' : AuthorizationCode} (h : Kept c c') (hunused : c'.usedAt = none) :
    c.usedAt = none := by
  by_contra hused
  exact hused (h.used hused ▸ hunused)

theorem Kept.stale {cutoff : ℤ} {c c' : AuthorizationCode} (h : Kept c c')
    (hstale : stale cutoff c' = true) : stale cutoff c = true := by
  rw [stale_iff] at hstale ⊢
  obtain ⟨hunused, hold, hkey⟩ := hstale
  refine ⟨h.unused hunused, createdAt_of_face h.face ▸ hold, ?_⟩
  rcases h.key with heq | hnil
  · exact heq ▸ hkey
  · exact absurd hnil hkey

section change

variable {job : Job}

theorem change_of_codes {p : Place} (hcodes : (p.next env w).2.codes = w.codes) :
    Change env p w (p.next env w).2 where
  evolves := p.evolves w
  wanes := p.wanes w
  origin c hc := .inl ⟨c, hcodes ▸ hc, Turned.refl p w c⟩

theorem Place.change {p : Place} (hw : Tables w) (hholds : Holds env w job p)
    (hsettles : Settles env w job p)
    (hyoung : ∀ createdAt ∈ p.inserts, w.now - createdAt ≤ env.life) :
    Change env p w (p.next env w).2 := by
  cases p with
  | done | find | age | stamp | mint | mintAt | issue | elapse => exact change_of_codes rfl
  | claim r row usedAt =>
    refine ⟨Place.evolves _ w, Place.wanes _ w, ?_⟩
    intro c' hc'
    obtain ⟨c, hc, rfl⟩ := List.mem_map.mp hc'
    refine .inl ⟨c, hc, ?_⟩
    refine
      { toKept := (gentle_claimRow row.id usedAt).kept c
        taken := ?_
        cleared := ?_ }
    · intro hunused hused
      by_cases hid : c.id = row.id
      · obtain ⟨c₀, hc₀, hkept⟩ := hholds.2.1.stored
        have hsame : c = c₀ := by
          apply hw.ids.eq_of_key hc hc₀
          exact hid.trans (id_of_face hkept.face).symm
        exact ⟨row, rfl, hid.symm, hsame ▸ (apiToken_of_face hkept.face).symm⟩
      · rw [if_neg (by simp [hid])] at hused
        exact absurd hunused hused
    · intro hunused hkey
      by_cases hclaimed : (c.id = row.id && c.usedAt.isNone) = true
      · rw [if_pos hclaimed] at hunused
        cases hunused
      · rw [if_neg hclaimed] at hkey
        exact .inl hkey
  | issueAt c apiToken createdAt =>
    refine ⟨Place.evolves _ w, Place.wanes _ w, ?_⟩
    intro c' hc'
    have hmem : c' ∈ (insertCode (newCode c apiToken createdAt) w).2.codes := hc'
    by_cases htaken : (w.codes.any fun code =>
        code.code = (newCode c apiToken createdAt w.nextCode).code) = true
    · rw [insertCode_taken htaken] at hmem
      exact .inl ⟨c', hmem, Turned.refl _ w c'⟩
    · have hnow : (insertCode (newCode c apiToken createdAt) w).2.now = w.now := by
        rw [insertCode_free htaken]
      rw [insertCode_free htaken] at hmem
      rcases List.mem_append.mp hmem with hmem | hmem
      · exact .inl ⟨c', hmem, Turned.refl _ w c'⟩
      · rw [List.mem_singleton.mp hmem]
        refine .inr ⟨rfl, RawKey.ne_nil c.rawKey, rfl, hsettles.1, ?_⟩
        show (insertCode (newCode c apiToken createdAt) w).2.now - createdAt ≤ env.life
        rw [hnow]
        exact hyoung createdAt rfl
  | sweep s caller =>
    cases s with
    | begin | select | stamp | revoke => exact change_of_codes rfl
    | scrub cutoff =>
      refine ⟨Place.evolves _ w, Place.wanes _ w, ?_⟩
      intro c' hc'
      obtain ⟨c, hc, rfl⟩ := List.mem_map.mp hc'
      refine .inl ⟨c, hc, ?_⟩
      refine
        { toKept := (gentle_scrubRow cutoff).kept c
          taken := ?_
          cleared := ?_ }
      · intro hunused hused
        by_cases hstale : stale cutoff c = true
        · rw [if_pos hstale] at hused
          exact absurd hunused hused
        · rw [if_neg hstale] at hused
          exact absurd hunused hused
      · intro _ hkey
        by_cases hstale : stale cutoff c = true
        · exact .inr (hsettles.1.2 c hc hstale)
        · rw [if_neg hstale] at hkey
          exact .inl hkey

variable {p q : Place}

theorem SweepHolds.change {s : Sweep} {caller : Caller} (h : SweepHolds env w s)
    (hw : Ledger env w) (hchange : Change env p w w')
    (hclear : ∀ row ∈ p.claims, (∃ c ∈ w.codes, c.id = row.id ∧ c.usedAt = none) →
      row.apiToken ∉ (Place.sweep s caller).picked) :
    SweepHolds env w' s := by
  have hnow : w.now ≤ w'.now := hchange.evolves.now
  -- a row that is stale now was stale before: the new ones are too young
  have hold : ∀ cutoff, cutoff + env.life ≤ w.now → ∀ c' ∈ w'.codes, stale cutoff c' = true →
      ∃ c ∈ w.codes, Turned p w c c' ∧ stale cutoff c = true := by
    intro cutoff hcutoff c' hc' hstale
    rcases hchange.origin c' hc' with ⟨c, hc, hturned⟩ | hinserted
    · exact ⟨c, hc, hturned, hturned.stale hstale⟩
    · have hyoung : w'.now - c'.createdAt ≤ env.life := hinserted.young
      have hlt : c'.createdAt < cutoff := (stale_iff.mp hstale).2.1
      omega
  cases s with
  | begin => exact trivial
  | select cutoff => exact le_trans h hnow
  | stamp cutoff tokenIds | revoke cutoff tokenIds revokedAt =>
    obtain ⟨hcutoff, hpicked, hunused⟩ := h
    refine ⟨hcutoff.trans hnow, ?_, ?_⟩
    · intro c' hc' hstale
      obtain ⟨c, hc, hturned, hbefore⟩ := hold cutoff hcutoff c' hc' hstale
      rw [apiToken_of_face hturned.face]
      exact hpicked c hc hbefore
    · intro c' hc' hmem
      rcases hchange.origin c' hc' with ⟨c, hc, hturned⟩ | hinserted
      · rw [apiToken_of_face hturned.face] at hmem
        by_contra hused
        have hfree : c.usedAt = none := hunused c hc hmem
        obtain ⟨row, hrow, hid, heq⟩ := hturned.taken hfree hused
        exact hclear row hrow ⟨c, hc, hid.symm, hfree⟩ (heq ▸ hmem)
      · exact hinserted.unused
  | scrub cutoff =>
    obtain ⟨hcutoff, hdead⟩ := h
    refine ⟨hcutoff.trans hnow, ?_⟩
    intro c' hc' hstale hactive
    obtain ⟨c, hc, hturned, hbefore⟩ := hold cutoff hcutoff c' hc' hstale
    rw [apiToken_of_face hturned.face] at hactive
    exact hdead c hc hbefore (hchange.wanes.active _ ((hw.linked c hc).lt hw) hactive)

theorem Granted.change {c : Consent} {apiToken : ApiToken} (h : Granted env w c apiToken)
    (hchange : Change env p w w') (hown : p.minted ≠ some apiToken.id) :
    Granted env w' c apiToken := by
  refine ⟨h.1.wanes hchange.wanes, ?_⟩
  intro c' hc'
  rcases hchange.origin c' hc' with ⟨code, hcode, hturned⟩ | hinserted
  · rw [apiToken_of_face hturned.face]
    exact h.2 code hcode
  · intro heq
    exact hown (heq ▸ hinserted.minted)

theorem Given.change {r : TokenRequest} {key : Str} (h : Given env w r key)
    (hchange : Change env p w w') : Given env w' r key := by
  obtain ⟨c, hc, hcode, hused, t, ht, hid, hhashed, hkey⟩ := h
  obtain ⟨c', hc', hkept⟩ := hchange.evolves.codes c hc
  have hsame : c' = c := hkept.used hused
  subst hsame
  obtain ⟨t', ht', hface⟩ := hchange.wanes.tokens t ht
  exact ⟨c', hc', hcode, hused, t', ht', (congrArg ApiToken.id hface).trans hid,
    (congrArg ApiToken.hashedKey hface).trans hhashed,
    (congrArg ApiToken.keyPrefix hface).trans hkey⟩

/-- What another request knows stands. -/
theorem Settles.change (h : Settles env w job q) (hw : Ledger env w)
    (hchange : Change env p w w')
    (hclear : ∀ row ∈ p.claims, (∃ c ∈ w.codes, c.id = row.id ∧ c.usedAt = none) →
      row.apiToken ∉ q.picked)
    (hown : ∀ id, p.minted = some id → q.minted ≠ some id) : Settles env w' job q := by
  have hgrant : ∀ (c : Consent) (apiToken : ApiToken), q.minted = some apiToken.id →
      Granted env w c apiToken → Granted env w' c apiToken := by
    intro c apiToken hminted hgranted
    apply hgranted.change hchange
    intro heq
    exact hown _ heq hminted
  cases q with
  | find | mint | mintAt | elapse => exact trivial
  | age | stamp | claim => exact Linked.wanes h hchange.wanes
  | issue c apiToken | issueAt c apiToken createdAt => exact hgrant c apiToken rfl h
  | done a =>
    cases a with
    | badRequest | redirect | swept | elapsed | raised => exact trivial
    | issued key scope =>
      obtain ⟨r, hjob, hgiven⟩ := h
      exact ⟨r, hjob, hgiven.change hchange⟩
  | sweep s caller =>
    refine ⟨h.1.change hw hchange hclear, ?_⟩
    cases caller with
    | alone | expired => exact trivial
    | grant c apiToken => exact hgrant c apiToken rfl h.2

/-- No row is used whose token a sweep has picked. -/
theorem Settles.picked_unused (h : Settles env w job p) {c : AuthorizationCode} (hc : c ∈ w.codes)
    (hmem : c.apiToken ∈ p.picked) : c.usedAt = none := by
  cases p with
  | done | find | age | stamp | claim | mint | mintAt | issue | issueAt | elapse =>
    exact absurd hmem List.not_mem_nil
  | sweep s caller =>
    cases s with
    | begin | select | scrub => exact absurd hmem List.not_mem_nil
    | stamp cutoff tokenIds | revoke cutoff tokenIds revokedAt => exact h.1.2.2 c hc hmem

theorem Ledger.oauth (hw : Ledger env w) {id : ℕ} {key : Str} (h : Linked env w id key) :
    ∀ t ∈ w.tokens, t.id = id → t.tokenType = .oauth := by
  intro t ht hid
  obtain ⟨t', ht', hid', hfits⟩ := h
  have hsame : t = t' := hw.ids.eq_of_key ht ht' (hid.trans hid'.symm)
  exact hsame ▸ hfits.oauth

theorem Linked.weaken {id : ℕ} {key key' : Str} (h : Linked env w id key)
    (hkey : key' = key ∨ key' = []) : Linked env w id key' := by
  rcases hkey with rfl | rfl
  · exact h
  · obtain ⟨t, ht, hid, hfits⟩ := h
    exact ⟨t, ht, hid, hfits.oauth, fun hne => absurd rfl hne⟩

/-- A good token stays good unless a sweep has picked it. -/
theorem Place.active {id : ℕ} (hactive : Active w id) (hpicked : id ∉ p.picked)
    (hoauth : ∀ t ∈ w.tokens, t.id = id → t.tokenType = .oauth) :
    Active (p.next env w).2 id := by
  cases p with
  | done | find | age | stamp | claim | mint | issue | elapse => exact hactive
  | mintAt =>
    obtain ⟨t, ht, hrest⟩ := hactive
    exact ⟨t, List.mem_append_left _ ht, hrest⟩
  | issueAt c apiToken createdAt =>
    show Active (insertCode (newCode c apiToken createdAt) w).2 id
    by_cases htaken : (w.codes.any fun code =>
        code.code = (newCode c apiToken createdAt w.nextCode).code) = true
    · rw [insertCode_taken htaken]
      exact hactive
    · rw [insertCode_free htaken]
      exact hactive
  | sweep s caller =>
    cases s with
    | begin | select | stamp | scrub => exact hactive
    | revoke cutoff tokenIds revokedAt => exact (active_revoke hoauth).mpr ⟨hactive, hpicked⟩

theorem Ledger.tokens (hw : Ledger env w) (p : Place) :
    Table.Unique ApiToken.id (p.next env w).2.tokens ∧
      ∀ t ∈ (p.next env w).2.tokens, t.id < (p.next env w).2.nextToken := by
  cases p with
  | done | find | age | stamp | claim | mint | issue | elapse => exact ⟨hw.ids, hw.fresh⟩
  | mintAt c createdAt =>
    constructor
    · apply hw.ids.append
      rw [Table.get_eq_none_iff]
      exact fun t ht => (hw.fresh t ht).ne
    · intro t ht
      rcases List.mem_append.mp ht with ht | ht
      · exact Nat.lt_succ_of_lt (hw.fresh t ht)
      · rw [List.mem_singleton.mp ht]
        exact Nat.lt_succ_self _
  | issueAt c apiToken createdAt =>
    show Table.Unique ApiToken.id (insertCode (newCode c apiToken createdAt) w).2.tokens ∧ _
    by_cases htaken : (w.codes.any fun code =>
        code.code = (newCode c apiToken createdAt w.nextCode).code) = true
    · show _ ∧ ∀ t ∈ (insertCode (newCode c apiToken createdAt) w).2.tokens,
        t.id < (insertCode (newCode c apiToken createdAt) w).2.nextToken
      rw [insertCode_taken htaken]
      exact ⟨hw.ids, hw.fresh⟩
    · show _ ∧ ∀ t ∈ (insertCode (newCode c apiToken createdAt) w).2.tokens,
        t.id < (insertCode (newCode c apiToken createdAt) w).2.nextToken
      rw [insertCode_free htaken]
      exact ⟨hw.ids, hw.fresh⟩
  | sweep s caller =>
    cases s with
    | begin | select | stamp | scrub => exact ⟨hw.ids, hw.fresh⟩
    | revoke cutoff tokenIds revokedAt =>
      constructor
      · exact hw.ids.map (revokeRow_id tokenIds revokedAt)
      · intro t' ht'
        obtain ⟨t, ht, rfl⟩ := List.mem_map.mp ht'
        have hid : (revokeRow tokenIds revokedAt t).id = t.id := revokeRow_id _ _ t
        exact lt_of_eq_of_lt hid (hw.fresh t ht)

theorem Ledger.owners_next (hw : Ledger env w) (hsettles : Settles env w job p) :
    Table.Unique AuthorizationCode.apiToken (p.next env w).2.codes := by
  cases p with
  | done | find | age | stamp | mint | mintAt | issue | elapse => exact hw.owners
  | claim r row usedAt =>
    exact hw.owners.map fun c => apiToken_of_face ((gentle_claimRow row.id usedAt).kept c).face
  | issueAt c apiToken createdAt =>
    show Table.Unique _ (insertCode (newCode c apiToken createdAt) w).2.codes
    by_cases htaken : (w.codes.any fun code =>
        code.code = (newCode c apiToken createdAt w.nextCode).code) = true
    · rw [insertCode_taken htaken]
      exact hw.owners
    · rw [insertCode_free htaken]
      apply hw.owners.append
      rw [Table.get_eq_none_iff]
      exact hsettles.2
  | sweep s caller =>
    cases s with
    | begin | select | stamp | revoke => exact hw.owners
    | scrub cutoff =>
      exact hw.owners.map fun c => apiToken_of_face ((gentle_scrubRow cutoff).kept c).face

/-- A clear step keeps the ledger. -/
theorem Ledger.next (hw : Ledger env w) (hsettles : Settles env w job p)
    (hchange : Change env p w (p.next env w).2)
    (hclear : ∀ row ∈ p.claims, (∃ c ∈ w.codes, c.id = row.id ∧ c.usedAt = none) →
      Active w row.apiToken) : Ledger env (p.next env w).2 where
  ids := (hw.tokens p).1
  fresh := (hw.tokens p).2
  owners := hw.owners_next hsettles
  linked c' hc' := by
    rcases hchange.origin c' hc' with ⟨c, hc, hturned⟩ | hinserted
    · rw [apiToken_of_face hturned.face]
      exact ((hw.linked c hc).weaken hturned.key).wanes hchange.wanes
    · exact hinserted.linked.wanes hchange.wanes
  live c' hc' hused := by
    rcases hchange.origin c' hc' with ⟨c, hc, hturned⟩ | hinserted
    · rw [apiToken_of_face hturned.face]
      have hoauth := hw.oauth (hw.linked c hc)
      by_cases hunused : c.usedAt = none
      · obtain ⟨row, hrow, hid, heq⟩ := hturned.taken hunused hused
        have hactive : Active w c.apiToken := heq ▸ hclear row hrow ⟨c, hc, hid.symm, hunused⟩
        apply Place.active hactive ?_ hoauth
        -- a claim has no tokens in hand
        cases p with
        | claim => exact List.not_mem_nil
        | done | find | age | stamp | mint | mintAt | sweep | issue | issueAt | elapse => cases hrow
      · apply Place.active (hw.live c hc hunused) ?_ hoauth
        intro hmem
        exact hunused (hsettles.picked_unused hc hmem)
    · exact absurd hinserted.unused hused
  dead c' hc' hunused hkey hactive := by
    rcases hchange.origin c' hc' with ⟨c, hc, hturned⟩ | hinserted
    · rw [apiToken_of_face hturned.face] at hactive
      have hbefore : Active w c.apiToken :=
        hchange.wanes.active _ ((hw.linked c hc).lt hw) hactive
      rcases hturned.cleared hunused hkey with hnil | hdead
      · exact hw.dead c hc (hturned.unused hunused) hnil hbefore
      · exact hdead hbefore
    · exact hinserted.key hkey

/-- What a request knows after its own step. -/
theorem Settles.next (h : Settles env w job p) (hw : Tables w) (hledger : Ledger env w)
    (hholds : Holds env w job p) (hchange : Change env p w (p.next env w).2) :
    Settles env (p.next env w).2 job (p.next env w).1 := by
  have hcaller : ∀ {caller : Caller} {w' : World} (count : ℕ), CallerHolds env w' caller →
      Settles env w' job (caller.place count) := by
    intro caller w' count hcaller
    cases caller with
    | alone | expired => exact trivial
    | grant c apiToken => exact hcaller
  cases p with
  | mint | elapse => exact trivial
  | done a => exact h
  | stamp r row => exact h
  | issue c apiToken => exact h
  | find r =>
    show Settles env w job (foundPlace r (findCode r.code w))
    cases hfound : findCode r.code w with
    | none => exact trivial
    | some row =>
      rw [foundPlace]
      rcases rowPlace_cases r row with ⟨d, hd⟩ | ⟨hage, -⟩
      · rw [hd]
        exact trivial
      · rw [hage]
        exact hledger.linked row (Table.get_mem hfound)
  | age r row =>
    show Settles env w job (agePlace env r row w.now)
    rcases agePlace_cases env r row w.now with ⟨hsweep, -⟩ | ⟨a, ha, hne⟩ | ⟨hstamp, -⟩
    · rw [hsweep]
      exact ⟨trivial, trivial⟩
    · rw [ha]
      cases a with
      | issued key scope => exact absurd rfl (hne key scope)
      | badRequest | redirect | swept | elapsed | raised => exact trivial
    · rw [hstamp]
      exact h
  | claim r row usedAt =>
    cases hnext : ((Place.claim r row usedAt).next env w).1 with
    | find | age | stamp | claim | mint | mintAt | sweep | issue | issueAt | elapse => cases hnext
    | done a =>
      cases a with
      | badRequest | redirect | swept | elapsed | raised => exact trivial
      | issued key scope =>
        have hnot : Place.claim r row usedAt ≠ .done (.issued key scope) := by
          intro heq
          cases heq
        obtain ⟨r', row', usedAt', heq, hclaim, hkey, rfl⟩ := issues_next hnot hnext
        cases heq
        obtain ⟨c, hc, hkept, hcode, hunused, hrow⟩ := hholds.2.1.claimed hw hclaim
        obtain ⟨t, ht, hid, hfits⟩ := h
        obtain ⟨hhashed, hkeyPrefix⟩ := hfits.hashed hkey
        refine ⟨r, hholds.1, claimRow row.id usedAt c, List.mem_map_of_mem hc, ?_, ?_, t, ht,
          ?_, hhashed, hkeyPrefix⟩
        · rw [hrow]
          exact hcode
        · rw [hrow]
          exact Option.some_ne_none _
        · rw [hrow, hid]
          exact (apiToken_of_face hkept.face).symm
  | mintAt c createdAt =>
    refine ⟨trivial, ⟨_, List.mem_append_right _ (List.mem_singleton_self _), rfl, rfl, ?_⟩, ?_⟩
    · exact fun _ => ⟨rfl, rfl⟩
    · intro code hcode
      exact ((hledger.linked code hcode).lt hledger).ne
  | issueAt c apiToken createdAt =>
    show Settles env _ job (.done (issueAnswer c _))
    rw [issueAnswer]
    by_cases hinserted : (insertCode (newCode c apiToken createdAt) w).1 = true
    · rw [if_pos hinserted]
      exact trivial
    · rw [if_neg hinserted]
      exact trivial
  | sweep s caller =>
    obtain ⟨hsweep, hgrant⟩ := h
    cases s with
    | begin => exact ⟨(sub_add_cancel w.now env.life).le, hgrant⟩
    | stamp cutoff tokenIds => exact ⟨hsweep, hgrant⟩
    | select cutoff =>
      show Settles env w job (selectPlace caller cutoff (staleTokens cutoff w))
      rw [selectPlace]
      by_cases hnil : staleTokens cutoff w = []
      · rw [if_pos hnil]
        exact hcaller 0 hgrant
      · rw [if_neg hnil]
        refine ⟨⟨hsweep, ?_, ?_⟩, hgrant⟩
        · intro c hc hstale
          exact List.mem_map_of_mem (List.mem_filter.mpr ⟨hc, hstale⟩)
        · intro c hc hmem
          obtain ⟨c₁, hc₁, heq⟩ := List.mem_map.mp hmem
          obtain ⟨hc₁, hstale⟩ := List.mem_filter.mp hc₁
          have hsame : c₁ = c := hledger.owners.eq_of_key hc₁ hc heq
          exact hsame ▸ (stale_iff.mp hstale).1
    | revoke cutoff tokenIds revokedAt =>
      obtain ⟨hcutoff, hpicked, -⟩ := hsweep
      refine ⟨⟨hcutoff, ?_⟩, ?_⟩
      · intro c hc hstale hactive
        have hoauth := hledger.oauth (hledger.linked c hc)
        exact ((active_revoke hoauth).mp hactive).2 (hpicked c hc hstale)
      · cases caller with
        | alone | expired => exact trivial
        | grant c apiToken => exact ⟨hgrant.1.wanes hchange.wanes, hgrant.2⟩
    | scrub cutoff =>
      apply hcaller
      cases caller with
      | alone | expired => exact trivial
      | grant c apiToken =>
        refine ⟨hgrant.1.wanes hchange.wanes, ?_⟩
        intro code hcode
        obtain ⟨code₀, hcode₀, rfl⟩ := List.mem_map.mp hcode
        have hsame : (scrubRow cutoff code₀).apiToken = code₀.apiToken :=
          apiToken_of_face ((gentle_scrubRow cutoff).kept code₀).face
        intro heq
        exact hgrant.2 code₀ hcode₀ (hsame.symm.trans heq)

/-- A step mints a new token, or it keeps the one it has. -/
theorem minted_next {id : ℕ} (h : (p.next env w).1.minted = some id) :
    p.minted = some id ∨ id = w.nextToken := by
  have hcaller : ∀ (caller : Caller) (count : ℕ) (s : Sweep),
      (caller.place count).minted = some id → (Place.sweep s caller).minted = some id := by
    intro caller count s hminted
    cases caller with
    | alone | expired => cases hminted
    | grant c apiToken => exact hminted
  cases p with
  | done | claim | mint | stamp | issueAt | elapse => cases h
  | issue c apiToken => exact .inl h
  | mintAt c createdAt => exact .inr (Option.some.inj h).symm
  | find r =>
    have hfound : (foundPlace r (findCode r.code w)).minted = some id := h
    cases hrow : findCode r.code w with
    | none =>
      rw [hrow] at hfound
      cases hfound
    | some row =>
      rw [hrow, foundPlace] at hfound
      rcases rowPlace_cases r row with ⟨d, hd⟩ | ⟨hage, -⟩
      · rw [hd] at hfound
        cases hfound
      · rw [hage] at hfound
        cases hfound
  | age r row =>
    have hage : (agePlace env r row w.now).minted = some id := h
    rcases agePlace_cases env r row w.now with ⟨hsweep, -⟩ | ⟨a, ha, -⟩ | ⟨hstamp, -⟩
    · rw [hsweep] at hage
      cases hage
    · rw [ha] at hage
      cases hage
    · rw [hstamp] at hage
      cases hage
  | sweep s caller =>
    cases s with
    | begin | stamp | revoke =>
      cases caller with
      | alone | expired => cases h
      | grant c apiToken => exact .inl h
    | scrub cutoff => exact .inl (hcaller caller _ _ h)
    | select cutoff =>
      have hselect : (selectPlace caller cutoff (staleTokens cutoff w)).minted = some id := h
      rw [selectPlace] at hselect
      by_cases hnil : staleTokens cutoff w = []
      · rw [if_pos hnil] at hselect
        exact .inl (hcaller caller _ _ hselect)
      · rw [if_neg hnil] at hselect
        cases caller with
        | alone | expired => cases hselect
        | grant c apiToken => exact .inl hselect

theorem Settles.minted_lt (h : Settles env w job q) (hw : Ledger env w) {id : ℕ}
    (hminted : q.minted = some id) : id < w.nextToken := by
  have hgranted : ∀ {c : Consent} {apiToken : ApiToken}, Granted env w c apiToken →
      apiToken.id < w.nextToken := fun hgranted => hgranted.1.lt hw
  cases q with
  | done | find | age | stamp | claim | mint | mintAt | elapse => cases hminted
  | issue | issueAt =>
    cases hminted
    exact hgranted h
  | sweep s caller =>
    cases caller with
    | alone | expired => cases hminted
    | grant =>
      cases hminted
      exact hgranted h.2

end change

/-! ### Clear runs -/

abbrev Settled (env : Env) : Server Job Place World → Prop :=
  Server.Invariant (Ledger env) (Settles env) OwnTokens

theorem OwnTokens.symm {job job' : Job} {p q : Place} (h : OwnTokens job p job' q) :
    OwnTokens job' q job p :=
  fun id hq hp => h id hp hq

theorem settles_enter (env : Env) (w : World) (job : Job) : Settles env w job (enter env job) := by
  rcases enter_cases env job with ⟨a, ha, hne⟩ | ⟨c, -, hc⟩ | ⟨r, -, hr⟩ | ⟨-, hs⟩ | ⟨n, -, hn⟩
  · rw [ha]
    cases a with
    | issued key scope => exact absurd rfl (hne key scope)
    | badRequest | redirect | swept | elapsed | raised => exact trivial
  · rw [hc]
    exact trivial
  · rw [hr]
    exact trivial
  · rw [hs]
    exact ⟨trivial, trivial⟩
  · rw [hn]
    exact trivial

theorem enter_minted (env : Env) (job : Job) : (enter env job).minted = none := by
  rcases enter_cases env job with ⟨a, ha, -⟩ | ⟨c, -, hc⟩ | ⟨r, -, hr⟩ | ⟨-, hs⟩ | ⟨n, -, hn⟩
  · rw [ha]
    rfl
  · rw [hc]
    rfl
  · rw [hr]
    rfl
  · rw [hs]
    rfl
  · rw [hn]
    rfl

theorem Settled.step {y : Server Job Place World} {turn : Turn Job} (hsound : Sound env y)
    (h : Settled env y) (hclear : ClearTurn env y turn) :
    Settled env (y.step (enter env) (Place.next env) turn) := by
  cases turn with
  | start job =>
    apply Server.Invariant.start h fun _ _ _ _ => OwnTokens.symm
    · exact settles_enter env y.state job
    · intro j job' q _ id hminted
      rw [enter_minted] at hminted
      cases hminted
  | run i =>
    apply Server.Invariant.run h fun _ _ _ _ => OwnTokens.symm
    intro job p hi
    obtain ⟨hclaims, hinserts⟩ := hclear (job, p) hi
    have hchange : Change env p y.state (p.next env y.state).2 :=
      Place.change hsound.state (hsound.request hi) (h.request hi) hinserts
    refine ⟨?_, ?_, ?_, ?_⟩
    · apply h.state.next (h.request hi) hchange
      exact fun row hrow hunused => (hclaims row hrow hunused).1
    · exact (h.request hi).next hsound.state h.state (hsound.request hi) hchange
    · intro j job' q hij hj
      apply (h.request hj).change h.state hchange
      · intro row hrow hunused
        exact (hclaims row hrow hunused).2 (job', q) (List.mem_of_getElem? hj)
      · exact h.pair hij hi hj
    · intro j job' q hij hj id hminted hq
      rcases minted_next hminted with hbefore | hnew
      · exact h.pair hij hi hj id hbefore hq
      · exact ((h.request hj).minted_lt h.state hq).ne hnew

theorem settled_run {y : Server Job Place World} {turns : List (Turn Job)} (hsound : Sound env y)
    (h : Settled env y) (hclear : ClearFrom env y turns) :
    Settled env (y.run (enter env) (Place.next env) turns) := by
  induction turns generalizing y with
  | nil => exact h
  | cons turn turns ih => exact ih (hsound.step turn) (h.step hsound hclear.1) hclear.2

theorem settled_site {now : ℤ} {turns : List (Turn Job)} (hclear : Clear env now turns) :
    Settled env (Site env now turns) := by
  refine settled_run (sound_site env now []) ?_ hclear
  refine ⟨⟨List.nodup_nil, ?_, List.nodup_nil, ?_, ?_, ?_⟩, ?_, ?_⟩
  · exact fun t ht => absurd ht List.not_mem_nil
  · exact fun c hc => absurd hc List.not_mem_nil
  · exact fun c hc => absurd hc List.not_mem_nil
  · exact fun c hc => absurd hc List.not_mem_nil
  · intro i job p hi
    cases hi
  · intro i j job p job' q _ hi
    cases hi

/-! ### What a sweep leaves -/

/-- No code from before the cutoff has a good token, unless it has been used. -/
def Cleared (cutoff : ℤ) (w : World) : Prop :=
  ∀ c ∈ w.codes, c.usedAt = none → c.createdAt < cutoff → ¬ Active w c.apiToken

/-- Behind a sweep that the request has called. -/
def Place.Behind : Place → Prop
  | .done (.swept _) => True
  | .done a => a = invalidGrant "Code expired" ∨ ∃ c inserted, a = issueAnswer c inserted
  | .issue _ _ | .issueAt _ _ _ => True
  | _ => False

/-- In the sweep, with its cutoff. -/
def Place.Cuts (cutoff : ℤ) : Place → Prop
  | .sweep (.select cutoff') _ | .sweep (.stamp cutoff' _) _ | .sweep (.revoke cutoff' _ _) _
  | .sweep (.scrub cutoff') _ => cutoff' = cutoff
  | _ => False

theorem not_behind_badRequest {error : String} {description : Option String}
    (h : description ≠ some "Code expired") :
    ¬ (Place.done (.badRequest error description)).Behind := by
  intro hbehind
  rcases hbehind with heq | ⟨c, inserted, heq⟩
  · cases heq
    exact h rfl
  · cases inserted <;> cases heq

theorem not_behind_raised {e : String} (h : e ≠ "IntegrityError") :
    ¬ (Place.done (.raised e)).Behind := by
  intro hbehind
  rcases hbehind with heq | ⟨c, inserted, heq⟩
  · cases heq
  · cases inserted with
    | true => cases heq
    | false =>
      cases heq
      exact h rfl

theorem enter_not_behind (env : Env) (job : Job) : ¬ (enter env job).Behind := by
  cases job with
  | sweep | elapse => exact id
  | authorize c =>
    rw [enter]
    by_cases hsafe : ¬ env.isSafeRedirectUri c.redirectUri
    · rw [if_pos hsafe]
      exact not_behind_badRequest (by decide)
    · rw [if_neg hsafe]
      by_cases hallow : c.decision ≠ "allow".toList
      · rw [if_pos hallow]
        intro hbehind
        rcases hbehind with heq | ⟨c', inserted, heq⟩
        · cases heq
        · cases inserted with
          | false => cases heq
          | true =>
            have hparams := (Answer.redirect.inj heq).2
            exact absurd (Prod.mk.inj (List.cons.inj hparams).1).1 (by decide)
      · rw [if_neg hallow]
        exact id
  | token r =>
    rw [enter]
    by_cases hgrant : r.grantType ≠ "authorization_code".toList
    · rw [if_pos hgrant]
      exact not_behind_badRequest (by decide)
    · rw [if_neg hgrant]
      exact id

theorem verifyPkce_error {verifier challenge method : Str} {e : String}
    (h : verifyPkce env verifier challenge method = .error e) : e ≠ "IntegrityError" := by
  simp only [verifyPkce] at h
  by_cases hempty : verifier = [] ∨ challenge = []
  · simp [hempty] at h
  · by_cases hmethod : method ≠ "S256".toList
    · rw [if_neg hempty, if_pos hmethod] at h
      cases h
    · rw [if_neg hempty, if_neg hmethod] at h
      by_cases hverifier : isAscii verifier = true
      · by_cases hchallenge : isAscii challenge = true
        · simp [hverifier, hchallenge] at h
        · simp only [hverifier, hchallenge] at h
          cases h
          decide
      · simp only [hverifier] at h
        cases h
        decide

/-- A request comes behind a sweep by the last statement of the sweep. -/
theorem behind_next {p : Place} (hp : ¬ p.Behind) (h : (p.next env w).1.Behind) :
    ∃ cutoff caller, p = .sweep (.scrub cutoff) caller ∨
      (p = .sweep (.select cutoff) caller ∧ staleTokens cutoff w = []) := by
  cases p with
  | mint | mintAt | stamp => exact h.elim
  | issue | issueAt => exact absurd trivial hp
  | done a => exact absurd h hp
  | elapse n =>
    rcases h with heq | ⟨c, inserted, heq⟩
    · cases heq
    · cases inserted <;> cases heq
  | find r =>
    have hfound : (foundPlace r (findCode r.code w)).Behind := h
    cases hrow : findCode r.code w with
    | none =>
      rw [hrow] at hfound
      exact absurd hfound (not_behind_badRequest (by decide))
    | some row =>
      rw [hrow, foundPlace, rowPlace] at hfound
      by_cases hredirect : r.redirectUri ≠ [] ∧ r.redirectUri ≠ row.redirectUri
      · rw [if_pos hredirect] at hfound
        exact absurd hfound (not_behind_badRequest (by decide))
      · rw [if_neg hredirect] at hfound
        by_cases hused : row.usedAt ≠ none
        · rw [if_pos hused] at hfound
          exact absurd hfound (not_behind_badRequest (by decide))
        · rw [if_neg hused] at hfound
          exact hfound.elim
  | age r row =>
    have hage : (agePlace env r row w.now).Behind := h
    rw [agePlace] at hage
    by_cases hold : env.life < w.now - row.createdAt
    · rw [if_pos hold] at hage
      exact hage.elim
    · rw [if_neg hold, pkcePlace] at hage
      cases hverify : verifyPkce env r.codeVerifier row.codeChallenge "S256".toList with
      | error e =>
        rw [hverify] at hage
        exact absurd hage (not_behind_raised (verifyPkce_error hverify))
      | ok verified =>
        rw [hverify] at hage
        cases verified with
        | false => exact absurd hage (not_behind_badRequest (by decide))
        | true => exact hage.elim
  | claim r row usedAt =>
    have hanswer : (Place.done (claimAnswer row (OAuth.claim row.id usedAt w).1)).Behind := h
    rw [claimAnswer] at hanswer
    by_cases hnone : (OAuth.claim row.id usedAt w).1 = 0
    · rw [if_pos hnone] at hanswer
      exact absurd hanswer (not_behind_badRequest (by decide))
    · rw [if_neg hnone] at hanswer
      by_cases hkey : row.rawKey = []
      · rw [if_pos hkey] at hanswer
        exact absurd hanswer (not_behind_badRequest (by decide))
      · rw [if_neg hkey] at hanswer
        rcases hanswer with heq | ⟨c, inserted, heq⟩
        · cases heq
        · cases inserted <;> cases heq
  | sweep s caller =>
    cases s with
    | begin | stamp | revoke => exact h.elim
    | scrub cutoff => exact ⟨cutoff, caller, .inl rfl⟩
    | select cutoff =>
      have hselect : (selectPlace caller cutoff (staleTokens cutoff w)).Behind := h
      rw [selectPlace] at hselect
      by_cases hnil : staleTokens cutoff w = []
      · exact ⟨cutoff, caller, .inr ⟨rfl, hnil⟩⟩
      · rw [if_neg hnil] at hselect
        exact hselect.elim

theorem not_cuts_caller (cutoff : ℤ) (caller : Caller) (count : ℕ) :
    ¬ (caller.place count).Cuts cutoff := by
  cases caller <;> exact id

theorem enter_not_cuts (env : Env) (cutoff : ℤ) (job : Job) : ¬ (enter env job).Cuts cutoff := by
  intro h
  rcases enter_cases env job with ⟨a, ha, -⟩ | ⟨c, -, hc⟩ | ⟨r, -, hr⟩ | ⟨-, hs⟩ | ⟨n, -, hn⟩
  · rw [ha] at h
    exact h.elim
  · rw [hc] at h
    exact h.elim
  · rw [hr] at h
    exact h.elim
  · rw [hs] at h
    exact h.elim
  · rw [hn] at h
    exact h.elim

/-- The cutoff is a TTL before the time the sweep has read. -/
theorem cuts_next {cutoff : ℤ} {p : Place} (hp : ¬ p.Cuts cutoff)
    (h : (p.next env w).1.Cuts cutoff) : w.now - env.life = cutoff := by
  cases p with
  | done | stamp | claim | mint | mintAt | issue | issueAt | elapse => exact h.elim
  | find r =>
    have hfound : (foundPlace r (findCode r.code w)).Cuts cutoff := h
    cases hrow : findCode r.code w with
    | none =>
      rw [hrow] at hfound
      exact hfound.elim
    | some row =>
      rw [hrow, foundPlace] at hfound
      rcases rowPlace_cases r row with ⟨d, hd⟩ | ⟨hage, -⟩
      · rw [hd] at hfound
        exact hfound.elim
      · rw [hage] at hfound
        exact hfound.elim
  | age r row =>
    have hage : (agePlace env r row w.now).Cuts cutoff := h
    rcases agePlace_cases env r row w.now with ⟨hsweep, -⟩ | ⟨a, ha, -⟩ | ⟨hstamp, -⟩
    · rw [hsweep] at hage
      exact hage.elim
    · rw [ha] at hage
      exact hage.elim
    · rw [hstamp] at hage
      exact hage.elim
  | sweep s caller =>
    cases s with
    | begin => exact h
    | stamp | revoke => exact absurd h hp
    | scrub cutoff' => exact absurd h (not_cuts_caller cutoff caller _)
    | select cutoff' =>
      have hselect : (selectPlace caller cutoff' (staleTokens cutoff' w)).Cuts cutoff := h
      rw [selectPlace] at hselect
      by_cases hnil : staleTokens cutoff' w = []
      · rw [if_pos hnil] at hselect
        exact absurd hselect (not_cuts_caller cutoff caller _)
      · rw [if_neg hnil] at hselect
        exact absurd hselect hp

/-! ### Keys that are given out, and keys that are not -/

/-- The answers of a request behind a sweep it has called. -/
def SweptAnswer : Job → Answer → Prop
  | .sweep, a => ∃ count, a = .swept count
  | .token _, a => a = invalidGrant "Code expired"
  | .authorize c, a => ∃ inserted, a = issueAnswer c inserted
  | .elapse _, _ => False

theorem SweptAnswer.behind {job : Job} {a : Answer} (h : SweptAnswer job a) :
    (Place.done a).Behind := by
  cases job with
  | elapse n => exact h.elim
  | sweep =>
    obtain ⟨count, rfl⟩ := h
    exact trivial
  | token r =>
    have ha : a = invalidGrant "Code expired" := h
    subst ha
    exact .inl rfl
  | authorize c =>
    obtain ⟨inserted, rfl⟩ := h
    cases inserted with
    | true => exact .inr ⟨c, true, rfl⟩
    | false => exact .inr ⟨c, false, rfl⟩

/-- Keys that have been given are good, and of a code that was past its time when a request
came that has swept since, the token is not, unless the code has been used. -/
structure LiveAndDead (env : Env) (now : ℤ) (turns : List (Turn Job)) : Prop where
  live : ∀ i r key scope, (served env now turns).Answered i (.token r) (.issued key scope) →
    ∃ c ∈ (served env now turns).state.codes, c.code = r.code ∧
      ∃ t ∈ (served env now turns).state.tokens, t.id = c.apiToken ∧
        t.hashedKey = env.sha256 key ∧ t.keyPrefix = keyPrefix key ∧ t.isActive = true
  dead : ∀ earlier later, turns = earlier ++ later → ∀ i job a,
    (served env now earlier).requests.length ≤ i → (served env now turns).Answered i job a →
      SweptAnswer job a → ∀ c ∈ (served env now earlier).state.codes,
        env.life < (served env now earlier).state.now - c.createdAt →
          ∀ c' ∈ (served env now turns).state.codes, c'.id = c.id → c'.usedAt = none →
            ¬ Active (served env now turns).state c'.apiToken

theorem site_append (env : Env) (now : ℤ) (turns later : List (Turn Job)) :
    Site env now (turns ++ later) =
      (Site env now turns).run (enter env) (Place.next env) later :=
  Server.run_append _ turns later

theorem evolves_site (env : Env) (now : ℤ) (turns later : List (Turn Job)) :
    Evolves (Site env now turns).state (Site env now (turns ++ later)).state := by
  rw [site_append]
  exact Server.run_rel Evolves.refl (fun _ _ _ => Evolves.trans) Place.evolves later

theorem wanes_site (env : Env) (now : ℤ) (turns later : List (Turn Job)) :
    Wanes (Site env now turns).state (Site env now (turns ++ later)).state := by
  rw [site_append]
  exact Server.run_rel Wanes.refl (fun _ _ _ => Wanes.trans) Place.wanes later

/-- A sweep that ends has cleared the codes before its cutoff. -/
theorem Settled.cleared {y : Server Job Place World} (h : Settled env y) {job : Job} {cutoff : ℤ}
    {caller : Caller} {i : ℕ} {p : Place} (hi : y.requests[i]? = some (job, p))
    (hp : p = .sweep (.scrub cutoff) caller ∨
      (p = .sweep (.select cutoff) caller ∧ staleTokens cutoff y.state = [])) :
    Cleared cutoff y.state := by
  intro c hc hunused hold hactive
  have hkey : c.rawKey ≠ [] := fun hnil => h.state.dead c hc hunused hnil hactive
  have hstale : stale cutoff c = true := stale_iff.mpr ⟨hunused, hold, hkey⟩
  rcases hp with rfl | ⟨-, hnone⟩
  · exact (h.request hi).1.2 c hc hstale hactive
  · have hmem : c.apiToken ∈ staleTokens cutoff y.state :=
      List.mem_map_of_mem (List.mem_filter.mpr ⟨hc, hstale⟩)
    rw [hnone] at hmem
    exact List.not_mem_nil hmem

/-- A row that is past its time when a sweep ends has no good token from then on. -/
theorem dead_behind_sweep {now cutoff : ℤ} {turns : List (Turn Job)} (later : List (Turn Job))
    {c c' : AuthorizationCode} (h : Settled env (Site env now turns))
    (hcleared : Cleared cutoff (Site env now turns).state)
    (hc : ∃ c₁ ∈ (Site env now turns).state.codes, Kept c c₁) (hold : c.createdAt < cutoff)
    (hc' : c' ∈ (Site env now (turns ++ later)).state.codes) (hid : c'.id = c.id)
    (hunused : c'.usedAt = none) : ¬ Active (Site env now (turns ++ later)).state c'.apiToken := by
  obtain ⟨c₁, hc₁, hkept₁⟩ := hc
  obtain ⟨c₂, hc₂, hkept₂⟩ := (evolves_site env now turns later).codes c₁ hc₁
  have hsame : c' = c₂ := by
    apply (sound_site env now (turns ++ later)).state.ids.eq_of_key hc' hc₂
    exact hid.trans (id_of_face (hkept₁.trans hkept₂).face).symm
  subst hsame
  have hold₁ : c₁.createdAt < cutoff := createdAt_of_face hkept₁.face ▸ hold
  have hdead : ¬ Active (Site env now turns).state c₁.apiToken :=
    hcleared c₁ hc₁ (hkept₂.unused hunused) hold₁
  intro hactive
  rw [apiToken_of_face hkept₂.face] at hactive
  have hlt := (h.state.linked c₁ hc₁).lt h.state
  exact hdead ((wanes_site env now turns later).active _ hlt hactive)

/-- **Keys that are given out stay good, and codes that nobody has come for lose theirs**, as
long as every step is clear. -/
theorem keys_live_and_dead (env : Env) (now : ℤ) (turns : List (Turn Job))
    (hclear : Clear env now turns) : LiveAndDead env now turns where
  live i r key scope hi := by
    have hsettled : Settled env (Site env now turns) := settled_site hclear
    obtain ⟨r', hr', c, hc, hcode, hused, t, ht, hid, hhashed, hprefix⟩ :=
      hsettled.request (answered_place hi)
    obtain ⟨t', ht', hid', hgood⟩ := hsettled.state.live c hc hused
    have hsame : t' = t := hsettled.state.ids.eq_of_key ht' ht (hid'.trans hid.symm)
    rw [state_served, Job.token.inj hr']
    exact ⟨c, hc, hcode, t, ht, hid, hhashed, hprefix, hsame ▸ hgood⟩
  dead earlier later hturns i job a hlen hi hanswer c hc hold c' hc' hid hunused := by
    rw [state_served] at hc hold hc' ⊢
    have hlen' : (Site env now earlier).requests.length ≤ i := by
      rw [served_eq] at hlen
      simpa [Server.map] using hlen
    -- the end of the sweep, and its beginning
    obtain ⟨toEnd, afterEnd, p, rfl, hp, hnot, hbehind⟩ :=
      site_crossed (enter_not_behind env) (answered_place hi) hanswer.behind
    obtain ⟨cutoff, caller, hsweep⟩ := behind_next hnot hbehind
    have hcuts : p.Cuts cutoff := by
      rcases hsweep with rfl | ⟨rfl, -⟩ <;> rfl
    obtain ⟨toBegin, afterBegin, q, hbegin, hq, hnot', hcut⟩ :=
      site_crossed (enter_not_cuts env cutoff) hp hcuts
    have hsplit : earlier ++ later =
        toBegin ++ (.run i :: afterBegin ++ .run i :: afterEnd) := by
      rw [← hturns, hbegin, List.append_assoc, List.cons_append]
    obtain ⟨between, rfl⟩ := Server.turns_since hsplit hlen' hq
    have hnow := (evolves_site env now earlier between).now
    have hcutoff := cuts_next hnot' hcut
    have hkept : ∃ c₁ ∈ (Site env now toEnd).state.codes, Kept c c₁ := by
      rw [hbegin, List.append_assoc]
      exact (evolves_site env now earlier _).codes c hc
    have hsettled : Settled env (Site env now toEnd) := settled_site (clearFrom_append hclear).1
    apply dead_behind_sweep _ hsettled (hsettled.cleared hp hsweep) hkept ?_ hc' hid hunused
    omega

/-! ### A redemption that crosses a sweep -/

/-- Ten minutes to live; digests that leave their text as it is. -/
def plainEnv : Env where
  ttl := 600
  namePrefix := "MCP".toList
  sha256 := id
  s256 := id
  isSafeRedirectUri _ := true

def consent : Consent where
  user := { id := 1, isStaff := false, isActive := true }
  clientId := "mcp_x".toList
  redirectUri := "https://x.example/cb".toList
  codeChallenge := "verifier".toList
  state := "s1".toList
  scope := "read".toList
  decision := "allow".toList
  rawKey := ⟨"0123456789".toList, by decide, by decide⟩
  code := "code".toList

def exchange : TokenRequest where
  grantType := "authorization_code".toList
  code := "code".toList
  codeVerifier := "verifier".toList

/-- The request `i` takes `n` turns. -/
def turnsOf (i n : ℕ) : List (Turn Job) := List.replicate n (.run i)

/-- A consent, its exchange in time, and a sweep when the time is over. -/
def timely : List (Turn Job) :=
  .start (.authorize consent) :: turnsOf 0 6 ++ .start (.token exchange) :: turnsOf 1 4 ++
    .start (.elapse 600000001) :: turnsOf 2 1 ++ .start .sweep :: turnsOf 3 5

theorem timely_live_and_dead : LiveAndDead plainEnv 0 timely :=
  keys_live_and_dead plainEnv 0 timely (by decide +kernel)

/-- The exchange has checked the age of the code when the time runs over; a sweep takes the
token before the claim. -/
def late : List (Turn Job) :=
  .start (.authorize consent) :: turnsOf 0 6 ++ .start (.token exchange) :: turnsOf 1 2 ++
    .start (.elapse 600000001) :: turnsOf 2 1 ++ .start .sweep :: turnsOf 3 5 ++ turnsOf 1 2

/-- The key that is given out is no longer good. -/
theorem late_key_dead : ¬ ∀ env now turns, LiveAndDead env now turns := by
  intro h
  have hanswered : (served plainEnv 0 late).Answered 1 (.token exchange)
      (.issued consent.rawKey.text "read".toList) := by
    have hplace : (Site plainEnv 0 late).requests[1]? =
        some (.token exchange, .done (.issued consent.rawKey.text "read".toList)) := by
      decide +kernel
    rw [Server.Answered, served_eq, Server.requests_map, hplace]
    rfl
  obtain ⟨c, -, -, t, ht, -, -, -, hgood⟩ := (h plainEnv 0 late).live 1 _ _ _ hanswered
  have hdead : ∀ t ∈ (Site plainEnv 0 late).state.tokens, t.isActive = false := by decide +kernel
  rw [state_served] at ht
  rw [hdead t ht] at hgood
  cases hgood

end CwStation.OAuth
