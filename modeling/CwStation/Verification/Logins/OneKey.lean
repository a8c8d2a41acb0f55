import CwStation.Verification.Logins.Places

/-! # One login key for each user

A login looks for an active row and writes to it, or it inserts one. As long as rows are
inserted only beside no active row, a user has one login key, and a new one ends the old. -/

namespace CwStation.Logins

open Auth Requests Threads

variable {env : Env} {w w' : World} {job : Job}

/-! ### What a step makes of the rows -/

def Job.digest (env : Env) (job : Job) : Option Str :=
  job.draw.map fun rawKey => env.sha256 rawKey.text

/-- What may become of a row: it stays what it is, none comes back, and a new key in it is the
one that was drawn. -/
structure Follows (env : Env) (job : Job) (t t' : ApiToken) : Prop where
  id : t'.id = t.id
  type : t'.tokenType = t.tokenType
  user : t'.user = t.user
  active : t'.isActive = true → t.isActive = true
  key : t'.hashedKey = t.hashedKey ∨ job.digest env = some t'.hashedKey

/-- A row that a step inserts. -/
structure Inserted (env : Env) (job : Job) (w : World) (t : ApiToken) : Prop where
  id : t.id = w.nextToken
  key : job.digest env = some t.hashedKey
  sole : t.tokenType = .login → ∀ t₀ ∈ w.tokens, isLogin t.user t₀ = false

structure Change (env : Env) (job : Job) (w w' : World) : Prop where
  kept : ∀ t ∈ w.tokens, ∃ t' ∈ w'.tokens, Follows env job t t'
  origin : ∀ t' ∈ w'.tokens, (∃ t ∈ w.tokens, Follows env job t t') ∨ Inserted env job w t'
  ids : Table.Unique ApiToken.id w.tokens → (∀ t ∈ w.tokens, t.id < w.nextToken) →
    Table.Unique ApiToken.id w'.tokens ∧ ∀ t ∈ w'.tokens, t.id < w'.nextToken

theorem Follows.refl (env : Env) (job : Job) (t : ApiToken) : Follows env job t t :=
  ⟨rfl, rfl, rfl, fun hactive => hactive, .inl rfl⟩

theorem change_of_tokens (env : Env) (job : Job) (htokens : w'.tokens = w.tokens)
    (hnext : w'.nextToken = w.nextToken) : Change env job w w' where
  kept t ht := ⟨t, htokens ▸ ht, Follows.refl env job t⟩
  origin t ht := .inl ⟨t, htokens ▸ ht, Follows.refl env job t⟩
  ids hids hfresh := by
    rw [htokens, hnext]
    exact ⟨hids, hfresh⟩

theorem change_of_map {f : ApiToken → ApiToken} (hf : ∀ t, Follows env job t (f t))
    (htokens : w'.tokens = w.tokens.map f) (hnext : w'.nextToken = w.nextToken) :
    Change env job w w' where
  kept t ht := ⟨f t, htokens ▸ List.mem_map_of_mem ht, hf t⟩
  origin t' ht' := by
    rw [htokens] at ht'
    obtain ⟨t, ht, rfl⟩ := List.mem_map.mp ht'
    exact .inl ⟨t, ht, hf t⟩
  ids hids hfresh := by
    rw [htokens, hnext]
    refine ⟨hids.map fun t => (hf t).id, ?_⟩
    intro t' ht'
    obtain ⟨t, ht, rfl⟩ := List.mem_map.mp ht'
    exact (hf t).id ▸ hfresh t ht

theorem change_saveToken {pk : ℕ} {update : World → ApiToken → ApiToken}
    (hupdate : ∀ t, Follows env job t (update w t)) : Change env job w (saveToken pk update w) := by
  refine change_of_map (f := fun t => if t.id = pk then update w t else t) ?_ rfl rfl
  intro t
  by_cases hpk : t.id = pk
  · simp only [hpk, if_true]
    exact hupdate t
  · simp only [hpk, if_false]
    exact Follows.refl env job t

theorem follows_renew {rawKey : RawKey} (hdraw : job.draw = some rawKey) (expiresAt : ℤ)
    (w : World) (t : ApiToken) : Follows env job t (renew env rawKey expiresAt w t) where
  id := rfl
  type := rfl
  user := rfl
  active hactive := hactive
  key := by
    refine .inr ?_
    rw [Job.digest, hdraw]
    rfl

theorem change_insertToken {row : ℕ → ApiToken} (hid : ∀ id, (row id).id = id)
    (hrow : Inserted env job w (row w.nextToken)) :
    Change env job w (insertToken row w).2 where
  kept t ht := ⟨t, List.mem_append_left _ ht, Follows.refl env job t⟩
  origin t ht := by
    rcases List.mem_append.mp ht with ht | ht
    · exact .inl ⟨t, ht, Follows.refl env job t⟩
    · rw [List.mem_singleton.mp ht]
      exact .inr hrow
  ids hids hfresh := by
    constructor
    · apply hids.append
      rw [Table.get_eq_none_iff, hid]
      exact fun t ht => (hfresh t ht).ne
    · intro t ht
      rcases List.mem_append.mp ht with ht | ht
      · exact Nat.lt_succ_of_lt (hfresh t ht)
      · rw [List.mem_singleton.mp ht, hid]
        exact Nat.lt_succ_self _

/-! ### When logins do not meet -/

def Use.draw : Use → Option RawKey
  | .refresh _ rawKey => some rawKey
  | .logout | .deactivate _ => none

/-- The key that a request is yet to write. -/
def Place.draw : Place → Option RawKey
  | .signIn l | .find l _ _ | .save l _ _ _ | .insert l _ _ => some l.rawKey
  | .look _ use | .touch _ use => use.draw
  | .renew rawKey _ _ | .mint _ _ rawKey => some rawKey
  | _ => none

/-- The user a request is about to insert a login row for. -/
def Place.inserts : Place → Option ℕ
  | .insert _ user _ => some user
  | _ => none

/-- A key is drawn that nobody has, and a login row is inserted beside no active one. -/
def ClearTurn (env : Env) (y : Server Job Place World) : Turn Job → Prop
  | .start job => ∀ rawKey ∈ job.draw,
      (∀ t ∈ y.state.tokens, t.hashedKey ≠ env.sha256 rawKey.text) ∧
        ∀ r ∈ y.requests, r.1.digest env ≠ some (env.sha256 rawKey.text)
  | .run i => ∀ r ∈ y.requests[i]?, ∀ user ∈ r.2.inserts,
      ∀ t ∈ y.state.tokens, isLogin user t = false

instance instDecidableClearTurn (env : Env) (y : Server Job Place World) :
    (turn : Turn Job) → Decidable (ClearTurn env y turn)
  | .start job => inferInstanceAs (Decidable (∀ rawKey ∈ job.draw,
      (∀ t ∈ y.state.tokens, t.hashedKey ≠ env.sha256 rawKey.text) ∧
        ∀ r ∈ y.requests, r.1.digest env ≠ some (env.sha256 rawKey.text)))
  | .run i => inferInstanceAs (Decidable (∀ r ∈ y.requests[i]?, ∀ user ∈ r.2.inserts,
      ∀ t ∈ y.state.tokens, isLogin user t = false))

def ClearFrom (env : Env) : Server Job Place World → List (Turn Job) → Prop
  | _, [] => True
  | y, turn :: turns =>
      ClearTurn env y turn ∧ ClearFrom env (y.step (enter env) (Place.next env) turn) turns

instance instDecidableClearFrom (env : Env) :
    (y : Server Job Place World) → (turns : List (Turn Job)) → Decidable (ClearFrom env y turns)
  | _, [] => inferInstanceAs (Decidable True)
  | y, turn :: turns =>
      have := instDecidableClearFrom env (y.step (enter env) (Place.next env) turn) turns
      inferInstanceAs (Decidable (ClearTurn env y turn ∧ _))

/-- A run all of whose turns are clear. -/
abbrev Clear (env : Env) (now : ℤ) (users : List User) (turns : List (Turn Job)) : Prop :=
  ClearFrom env { state := { now := now, users := users } } turns

theorem clearFrom_append {y : Server Job Place World} {turns later : List (Turn Job)}
    (h : ClearFrom env y (turns ++ later)) :
    ClearFrom env y turns ∧
      ClearFrom env (y.run (enter env) (Place.next env) turns) later := by
  induction turns generalizing y with
  | nil => exact ⟨trivial, h⟩
  | cons turn turns ih =>
    obtain ⟨hturn, hrest⟩ := h
    obtain ⟨hturns, hlater⟩ := ih hrest
    exact ⟨⟨hturn, hturns⟩, hlater⟩

/-! ### Steps -/

theorem Place.change {p : Place} (hdraw : ∀ rawKey, p.draw = some rawKey → job.draw = some rawKey)
    (hsole : ∀ user ∈ p.inserts, ∀ t ∈ w.tokens, isLogin user t = false) :
    Change env job w (p.next env w).2 := by
  cases p with
  | done | signIn | find | look | target => exact change_of_tokens env job rfl rfl
  | closeUser | elapse => exact change_of_tokens env job rfl rfl
  | save l user expiresAt row =>
    exact change_saveToken fun t => follows_renew (hdraw _ rfl) expiresAt w t
  | renew rawKey hours t₀ =>
    exact change_saveToken fun t => follows_renew (hdraw _ rfl) _ w t
  | touch t₀ use => exact change_saveToken fun t => ⟨rfl, rfl, rfl, fun hactive => hactive, .inl rfl⟩
  | revoke t₀ =>
    apply change_saveToken
    exact fun t => ⟨rfl, rfl, rfl, fun hactive => absurd hactive Bool.false_ne_true, .inl rfl⟩
  | closeTokens user =>
    refine change_of_map (f := fun t => if t.user = user && t.isActive then
      { t with isActive := false, revokedAt := some w.now } else t) ?_ rfl rfl
    intro t
    by_cases hclosed : (t.user = user && t.isActive) = true
    · simp only [hclosed, if_true]
      exact ⟨rfl, rfl, rfl, fun hactive => absurd hactive Bool.false_ne_true, .inl rfl⟩
    · simp only [hclosed]
      exact Follows.refl env job t
  | insert l user expiresAt =>
    apply change_insertToken fun _ => rfl
    refine ⟨rfl, ?_, fun _ => hsole user rfl⟩
    rw [Job.digest, hdraw l.rawKey rfl]
    rfl
  | mint user level rawKey =>
    apply change_insertToken fun _ => rfl
    refine ⟨rfl, ?_, ?_⟩
    · rw [Job.digest, hdraw rawKey rfl]
      rfl
    · intro hlogin
      cases hlogin

/-- A user has one active login row at most. -/
structure Tables (w : World) : Prop where
  ids : Table.Unique ApiToken.id w.tokens
  fresh : ∀ t ∈ w.tokens, t.id < w.nextToken
  sole : ∀ user, ∀ t ∈ w.tokens, ∀ t' ∈ w.tokens, isLogin user t = true → isLogin user t' = true →
    t.id = t'.id

theorem isLogin_iff {user : ℕ} {t : ApiToken} :
    isLogin user t = true ↔ t.user = user ∧ t.tokenType = .login ∧ t.isActive = true := by
  simp [isLogin, and_assoc]

theorem Follows.isLogin {user : ℕ} {t t' : ApiToken} (h : Follows env job t t')
    (hlogin : isLogin user t' = true) : isLogin user t = true := by
  rw [isLogin_iff] at hlogin ⊢
  obtain ⟨huser, htype, hactive⟩ := hlogin
  exact ⟨h.user ▸ huser, h.type ▸ htype, h.active hactive⟩

theorem Inserted.only {user : ℕ} {t t₀ : ApiToken} (h : Inserted env job w t)
    (hlogin : isLogin user t = true) (ht₀ : t₀ ∈ w.tokens) (hlogin₀ : isLogin user t₀ = true) :
    False := by
  obtain ⟨huser, htype, -⟩ := isLogin_iff.mp hlogin
  have hnone : isLogin t.user t₀ = false := h.sole htype t₀ ht₀
  rw [huser, hlogin₀] at hnone
  cases hnone

theorem Change.tables (h : Change env job w w') (hw : Tables w) : Tables w' where
  ids := (h.ids hw.ids hw.fresh).1
  fresh := (h.ids hw.ids hw.fresh).2
  sole user t₁ ht₁ t₂ ht₂ hlogin₁ hlogin₂ := by
    rcases h.origin t₁ ht₁ with ⟨u₁, hu₁, hfollows₁⟩ | hinserted₁
    · rcases h.origin t₂ ht₂ with ⟨u₂, hu₂, hfollows₂⟩ | hinserted₂
      · rw [hfollows₁.id, hfollows₂.id]
        exact hw.sole user u₁ hu₁ u₂ hu₂ (hfollows₁.isLogin hlogin₁) (hfollows₂.isLogin hlogin₂)
      · exact (hinserted₂.only hlogin₂ hu₁ (hfollows₁.isLogin hlogin₁)).elim
    · rcases h.origin t₂ ht₂ with ⟨u₂, hu₂, hfollows₂⟩ | hinserted₂
      · exact (hinserted₁.only hlogin₁ hu₂ (hfollows₂.isLogin hlogin₂)).elim
      · rw [hinserted₁.id, hinserted₂.id]

/-! ### What a request knows -/

/-- The row that a request has read. -/
def Seen (w : World) (row : ApiToken) : Prop :=
  ∃ t ∈ w.tokens, t.id = row.id ∧ t.tokenType = row.tokenType ∧ t.user = row.user

theorem Seen.change {row : ApiToken} (h : Seen w row) (hchange : Change env job w w') :
    Seen w' row := by
  obtain ⟨t, ht, hid, htype, huser⟩ := h
  obtain ⟨t', ht', hfollows⟩ := hchange.kept t ht
  exact ⟨t', ht', hfollows.id.trans hid, hfollows.type.trans htype, hfollows.user.trans huser⟩

/-- The key is in login rows of the user only. -/
def Keyed (w : World) (digest : Str) (user : ℕ) : Prop :=
  ∀ t ∈ w.tokens, t.hashedKey = digest → t.tokenType = .login ∧ t.user = user

/-- What holds at a place, besides the keys that are drawn. -/
def PlaceHolds (env : Env) (w : World) : Place → Prop
  | .done (.token rawKey user _) => Keyed w (env.sha256 rawKey) user
  | .save _ user _ row => Seen w row ∧ row.tokenType = .login ∧ row.user = user
  | .touch row _ => Seen w row
  | .renew _ _ row => Seen w row ∧ row.tokenType = .login
  | _ => True

/-- The key that has been given, by its text. -/
def Place.gave : Place → Option Str
  | .done (.token rawKey _ _) => some rawKey
  | _ => none

structure Holds (env : Env) (w : World) (job : Job) (p : Place) : Prop where
  draw : ∀ rawKey, p.draw = some rawKey → job.draw = some rawKey
  gave : ∀ text, p.gave = some text → ∃ rawKey, job.draw = some rawKey ∧ rawKey.text = text
  unwritten : ∀ rawKey, p.draw = some rawKey →
    ∀ t ∈ w.tokens, t.hashedKey ≠ env.sha256 rawKey.text
  place : PlaceHolds env w p

/-- Two requests have drawn different keys. -/
def Differ (env : Env) (job : Job) (_ : Place) (job' : Job) (_ : Place) : Prop :=
  ∀ digest, job.digest env = some digest → job'.digest env ≠ some digest

theorem Differ.symm {job' : Job} {p q : Place} (h : Differ env job p job' q) :
    Differ env job' q job p :=
  fun digest hq hp => h digest hp hq

theorem digest_of_draw {rawKey : RawKey} (h : job.draw = some rawKey) :
    job.digest env = some (env.sha256 rawKey.text) := by
  rw [Job.digest, h]
  rfl

/-- A row with another key than the one that was drawn is a row that was there. -/
theorem Change.row_of_other {digest : Str} (h : Change env job w w')
    (hdigest : job.digest env ≠ some digest) {t' : ApiToken} (ht' : t' ∈ w'.tokens)
    (hkey : t'.hashedKey = digest) :
    ∃ t ∈ w.tokens, Follows env job t t' ∧ t.hashedKey = digest := by
  rcases h.origin t' ht' with ⟨t, ht, hfollows⟩ | hinserted
  · rcases hfollows.key with hsame | hnew
    · exact ⟨t, ht, hfollows, hsame.symm.trans hkey⟩
    · exact absurd (hkey ▸ hnew) hdigest
  · exact absurd (hkey ▸ hinserted.key) hdigest

theorem Keyed.change {digest : Str} {user : ℕ} (h : Keyed w digest user)
    (hchange : Change env job w w') (hdigest : job.digest env ≠ some digest) :
    Keyed w' digest user := by
  intro t' ht' hkey
  obtain ⟨t, ht, hfollows, hbefore⟩ := hchange.row_of_other hdigest ht' hkey
  obtain ⟨htype, huser⟩ := h t ht hbefore
  exact ⟨hfollows.type.trans htype, hfollows.user.trans huser⟩

/-- What another request knows stands. -/
theorem Holds.change {job' : Job} {q : Place} (h : Holds env w job' q)
    (hchange : Change env job w w') (hdiffer : ∀ digest, job.digest env = some digest →
      job'.digest env ≠ some digest) : Holds env w' job' q where
  draw := h.draw
  gave := h.gave
  unwritten rawKey hdraw t' ht' hkey := by
    have hother : job.digest env ≠ some (env.sha256 rawKey.text) :=
      fun heq => hdiffer _ heq (digest_of_draw (h.draw rawKey hdraw))
    obtain ⟨t, ht, -, hbefore⟩ := hchange.row_of_other hother ht' hkey
    exact h.unwritten rawKey hdraw t ht hbefore
  place := by
    have hplace := h.place
    cases q with
    | signIn | find | insert | look | revoke | target | closeUser | closeTokens | mint | elapse =>
      exact trivial
    | save => exact ⟨hplace.1.change hchange, hplace.2⟩
    | touch => exact Seen.change hplace hchange
    | renew => exact ⟨hplace.1.change hchange, hplace.2⟩
    | done a =>
      cases a with
      | error | expired | message | minted | elapsed | raised => exact trivial
      | token text user expiresAt =>
        obtain ⟨rawKey, hdraw, rfl⟩ := h.gave text rfl
        exact Keyed.change hplace hchange fun heq => hdiffer _ heq (digest_of_draw hdraw)

/-! ### What a request knows after its own step -/

theorem newest_mem {l : List ApiToken} {t : ApiToken} (h : newest l = some t) : t ∈ l := by
  induction l generalizing t with
  | nil => cases h
  | cons u us ih =>
    rw [newest] at h
    cases hrest : newest us with
    | none =>
      rw [hrest] at h
      exact Option.some.inj h ▸ List.mem_cons_self
    | some v =>
      rw [hrest] at h
      by_cases hlt : u.createdAt < v.createdAt
      · simp only [hlt, if_true, Option.some.injEq] at h
        exact List.mem_cons_of_mem _ (ih (hrest.trans (congrArg some h)))
      · simp only [hlt, if_false, Option.some.injEq] at h
        exact h ▸ List.mem_cons_self

theorem newest_eq_none {l : List ApiToken} (h : newest l = none) : l = [] := by
  cases l with
  | nil => rfl
  | cons u us =>
    rw [newest] at h
    cases hrest : newest us with
    | none =>
      rw [hrest] at h
      cases h
    | some v =>
      rw [hrest] at h
      by_cases hlt : u.createdAt < v.createdAt
      · simp [hlt] at h
      · simp [hlt] at h

theorem existingLogin_some {user : ℕ} {row : ApiToken} (h : existingLogin user w = some row) :
    row ∈ w.tokens ∧ isLogin user row = true :=
  List.mem_filter.mp (newest_mem h)

theorem existingLogin_none {user : ℕ} (h : existingLogin user w = none) :
    ∀ t ∈ w.tokens, isLogin user t = false := by
  intro t ht
  by_contra hlogin
  have hmem : t ∈ w.tokens.filter (isLogin user) :=
    List.mem_filter.mpr ⟨ht, Bool.eq_true_of_not_eq_false hlogin⟩
  rw [newest_eq_none h] at hmem
  exact List.not_mem_nil hmem

/-- A key that is accepted is the key of an active row. -/
theorem lookup_accepted {key : Str} {t : ApiToken} (h : lookup env key w = .accepted t) :
    t ∈ w.tokens ∧ t.keyPrefix = keyPrefix key ∧ t.hashedKey = env.sha256 key ∧
      rejectionReason w t = none := by
  rw [lookup] at h
  by_cases hshort : key.length < 8
  · rw [if_pos hshort] at h
    cases h
  · rw [if_neg hshort] at h
    cases hrows : keyRows env key w with
    | nil =>
      rw [hrows] at h
      cases h
    | cons u us =>
      cases us with
      | cons v vs =>
        rw [hrows] at h
        cases h
      | nil =>
        rw [hrows] at h
        have hmem : u ∈ keyRows env key w := hrows ▸ List.mem_cons_self
        have hrow := List.mem_filter.mp hmem
        have hkey : u.keyPrefix = keyPrefix key ∧ u.hashedKey = env.sha256 key := by
          simpa using hrow.2
        cases hreason : rejectionReason w u with
        | some reason =>
          simp only [hreason] at h
          cases h
        | none =>
          simp only [hreason, Lookup.accepted.injEq] at h
          subst h
          exact ⟨hrow.1, hkey.1, hkey.2, hreason⟩

theorem active_of_accepted {t : ApiToken} (h : rejectionReason w t = none) :
    t.isActive = true := by
  by_contra hactive
  have hrevoked : t.revokedAt ≠ none ∨ t.isActive = false :=
    .inr (Bool.eq_false_of_not_eq_true hactive)
  rw [rejectionReason, if_pos hrevoked] at h
  cases h

theorem seen_of_mem {row : ApiToken} (h : row ∈ w.tokens) : Seen w row := ⟨row, h, rfl, rfl, rfl⟩

/-- The rows with a key that has just been written are the row it was written to. -/
theorem keyed_saved {digest : Str} {pk user : ℕ} {update : World → ApiToken → ApiToken}
    (hunwritten : ∀ t ∈ w.tokens, t.hashedKey ≠ digest)
    (hupdate : ∀ t, (update w t).tokenType = t.tokenType ∧ (update w t).user = t.user)
    (hrow : ∀ t ∈ w.tokens, t.id = pk → t.tokenType = .login ∧ t.user = user) :
    Keyed (saveToken pk update w) digest user := by
  intro t' ht' hkey
  obtain ⟨t, ht, rfl⟩ := Table.mem_alter ht'
  by_cases hpk : t.id = pk
  · rw [if_pos hpk, (hupdate t).1, (hupdate t).2]
    exact hrow t ht hpk
  · rw [if_neg hpk] at hkey
    exact absurd hkey (hunwritten t ht)

theorem Seen.rows {row : ApiToken} (h : Seen w row) (hw : Tables w) (htype : row.tokenType = .login) :
    ∀ t ∈ w.tokens, t.id = row.id → t.tokenType = .login ∧ t.user = row.user := by
  intro t ht hid
  obtain ⟨t₀, ht₀, hid₀, htype₀, huser₀⟩ := h
  have hsame : t = t₀ := hw.ids.eq_of_key ht ht₀ (hid.trans hid₀.symm)
  subst hsame
  exact ⟨htype₀.trans htype, huser₀⟩

/-- Where a signed-in call goes on. -/
theorem usePlace_cases (env : Env) (use : Use) (t : Option ApiToken) :
    (∃ a, use.place env t = .done a ∧ (Place.done a).gave = none) ∨
      (∃ rawKey hours hours' row, use = .refresh hours' rawKey ∧ t = some row ∧
        use.place env t = .renew rawKey hours row ∧ row.tokenType = .login) ∨
        (∃ row, t = some row ∧ use.place env t = .revoke row) ∨
          ∃ user, use.place env t = .target user := by
  cases use with
  | logout =>
    cases t with
    | none => exact .inl ⟨_, rfl, rfl⟩
    | some row => exact .inr (.inr (.inl ⟨row, rfl, rfl⟩))
  | deactivate user =>
    cases t with
    | none => exact .inl ⟨_, rfl, rfl⟩
    | some row =>
      rw [Use.place]
      by_cases hauth : isAuthToken row = true
      · rw [if_pos hauth]
        exact .inr (.inr (.inr ⟨user, rfl⟩))
      · rw [if_neg hauth]
        exact .inl ⟨_, rfl, rfl⟩
  | refresh hours rawKey =>
    cases t with
    | none => exact .inl ⟨_, rfl, rfl⟩
    | some row =>
      rw [Use.place]
      by_cases hlogin : row.tokenType ≠ .login
      · rw [if_pos hlogin]
        exact .inl ⟨_, rfl, rfl⟩
      · rw [if_neg hlogin]
        cases resolveTokenExpiry env hours with
        | error e => exact .inl ⟨_, rfl, rfl⟩
        | ok hours' =>
          exact .inr (.inl ⟨rawKey, hours', hours, row, rfl, rfl, rfl, not_not.mp hlogin⟩)

theorem holds_done {a : Answer} (h : (Place.done a).gave = none) : Holds env w job (.done a) where
  draw _ hdraw := by cases hdraw
  gave text hgave := by
    rw [h] at hgave
    cases hgave
  unwritten _ hdraw := by cases hdraw
  place := by
    cases a with
    | token => cases h
    | error | expired | message | minted | elapsed | raised => exact trivial

theorem gave_refusal (reason : Rejection) : (Place.done (refusal reason)).gave = none := by
  cases reason <;> rfl

theorem lookPlace_cases (use : Use) (found : Lookup) :
    (∃ a, lookPlace use found = .done a ∧ (Place.done a).gave = none) ∨
      ∃ t, found = .accepted t ∧ lookPlace use found = .touch t use := by
  cases found with
  | unknown | several => exact .inl ⟨_, rfl, rfl⟩
  | refused t reason => exact .inl ⟨_, rfl, gave_refusal reason⟩
  | accepted t => exact .inr ⟨t, rfl, rfl⟩

theorem signInPlace_cases (env : Env) (l : Login) (user : Option User) :
    (∃ a, signInPlace env l user = .done a ∧ (Place.done a).gave = none) ∨
      ∃ u hours, signInPlace env l user = .find l u hours := by
  rw [signInPlace]
  by_cases hlocked : l.lockedOut = true
  · rw [if_pos hlocked]
    exact .inl ⟨_, rfl, rfl⟩
  · rw [if_neg hlocked]
    cases user with
    | none => exact .inl ⟨_, rfl, rfl⟩
    | some u =>
      rw [grantPlace]
      cases resolveTokenExpiry env l.hours with
      | error e => exact .inl ⟨_, rfl, rfl⟩
      | ok hours => exact .inr ⟨u, hours, rfl⟩

/-- A key that has been written is given. -/
theorem holds_given {p : Place} (h : Holds env w job p) {rawKey : RawKey} {user : ℕ} {expiresAt : ℤ}
    (hdraw : p.draw = some rawKey) (hkeyed : Keyed w' (env.sha256 rawKey.text) user) :
    Holds env w' job (.done (.token rawKey.text user expiresAt)) where
  draw _ hnone := by cases hnone
  gave text hgave := ⟨rawKey, h.draw rawKey hdraw, Option.some.inj hgave⟩
  unwritten _ hnone := by cases hnone
  place := hkeyed

/-- A step that keeps the keys and goes on with the same draw. -/
theorem holds_moved {p q : Place} (h : Holds env w job p)
    (hdraw : ∀ rawKey, q.draw = some rawKey → p.draw = some rawKey) (hgave : q.gave = none)
    (hkeys : ∀ t' ∈ w'.tokens, ∃ t ∈ w.tokens, t'.hashedKey = t.hashedKey)
    (hplace : PlaceHolds env w' q) : Holds env w' job q where
  draw rawKey hq := h.draw rawKey (hdraw rawKey hq)
  gave text htext := by
    rw [hgave] at htext
    cases htext
  unwritten rawKey hq t' ht' hkey := by
    obtain ⟨t, ht, hsame⟩ := hkeys t' ht'
    exact h.unwritten rawKey (hdraw rawKey hq) t ht (hsame.symm.trans hkey)
  place := hplace

theorem same_keys : ∀ t' ∈ w.tokens, ∃ t ∈ w.tokens, t'.hashedKey = t.hashedKey :=
  fun t ht => ⟨t, ht, rfl⟩

theorem Holds.next {p : Place} (h : Holds env w job p) (hw : Tables w)
    (hchange : Change env job w (p.next env w).2) :
    Holds env (p.next env w).2 job (p.next env w).1 := by
  cases p with
  | done a => exact h
  | revoke | closeTokens | mint | elapse => exact holds_done rfl
  | closeUser user => exact holds_moved h (fun _ hdraw => hdraw) rfl same_keys trivial
  | signIn l =>
    show Holds env w job (signInPlace env l (Logins.signIn env l w))
    rcases signInPlace_cases env l (Logins.signIn env l w) with ⟨a, ha, hgave⟩ | ⟨u, hours, hu⟩
    · rw [ha]
      exact holds_done hgave
    · rw [hu]
      exact holds_moved h (fun _ hdraw => hdraw) rfl same_keys trivial
  | find l user hours =>
    show Holds env w job (upsertPlace l user.id (expiry hours w.now) (existingLogin user.id w))
    cases hexisting : existingLogin user.id w with
    | none => exact holds_moved h (fun _ hdraw => hdraw) rfl same_keys trivial
    | some row =>
      obtain ⟨hrow, hlogin⟩ := existingLogin_some hexisting
      obtain ⟨huser, htype, -⟩ := isLogin_iff.mp hlogin
      exact holds_moved h (fun _ hdraw => hdraw) rfl same_keys
        ⟨seen_of_mem hrow, htype, huser⟩
  | target user =>
    show Holds env w job (targetPlace (findUser w user))
    cases findUser w user with
    | none => exact holds_done rfl
    | some target => exact holds_moved h (fun _ hdraw => hdraw) rfl same_keys trivial
  | look rawKey use =>
    show Holds env w job (lookPlace use (lookup env rawKey w))
    rcases lookPlace_cases use (lookup env rawKey w) with ⟨a, ha, hgave⟩ | ⟨t, ht, htouch⟩
    · rw [ha]
      exact holds_done hgave
    · rw [htouch]
      exact holds_moved h (fun _ hdraw => hdraw) rfl same_keys
        (seen_of_mem (lookup_accepted ht).1)
  | touch row use =>
    have hkeys : ∀ t' ∈ (saveToken row.id Logins.touch w).tokens, ∃ t ∈ w.tokens,
        t'.hashedKey = t.hashedKey := by
      intro t' ht'
      obtain ⟨t, ht, rfl⟩ := Table.mem_alter ht'
      refine ⟨t, ht, ?_⟩
      by_cases hpk : t.id = row.id
      · rw [if_pos hpk]
        rfl
      · rw [if_neg hpk]
    have hseen : Seen (saveToken row.id Logins.touch w) row := Seen.change h.place hchange
    show Holds env _ job (use.place env (some row))
    rcases usePlace_cases env use (some row) with ⟨a, ha, hgave⟩ |
      ⟨rawKey, hours, hours', row', rfl, hsame, hrenew, hlogin⟩ | ⟨row', -, hrevoke⟩ | ⟨user, htarget⟩
    · rw [ha]
      exact holds_done hgave
    · cases hsame
      rw [hrenew]
      exact holds_moved h (fun _ hdraw => hdraw) rfl hkeys ⟨hseen, hlogin⟩
    · rw [hrevoke]
      exact holds_moved h (fun _ hdraw => by cases hdraw) rfl hkeys trivial
    · rw [htarget]
      exact holds_moved h (fun _ hdraw => by cases hdraw) rfl hkeys trivial
  | save l user expiresAt row =>
    obtain ⟨hseen, htype, huser⟩ := h.place
    apply holds_given h rfl
    apply keyed_saved (h.unwritten l.rawKey rfl) fun _ => ⟨rfl, rfl⟩
    intro t ht hid
    obtain ⟨htype', huser'⟩ := hseen.rows hw htype t ht hid
    exact ⟨htype', huser'.trans huser⟩
  | renew rawKey hours row =>
    obtain ⟨hseen, htype⟩ := h.place
    apply holds_given h rfl
    exact keyed_saved (h.unwritten rawKey rfl) (fun _ => ⟨rfl, rfl⟩) (hseen.rows hw htype)
  | insert l user expiresAt =>
    apply holds_given h rfl
    intro t ht hkey
    rcases List.mem_append.mp ht with ht | ht
    · exact absurd hkey (h.unwritten l.rawKey rfl t ht)
    · rw [List.mem_singleton.mp ht]
      exact ⟨rfl, rfl⟩

/-! ### Clear runs -/

abbrev Sound (env : Env) : Server Job Place World → Prop :=
  Server.Invariant Tables (Holds env) (Differ env)

theorem gave_place (env : Env) (use : Use) (t : Option ApiToken) :
    (use.place env t).gave = none := by
  rcases usePlace_cases env use t with ⟨a, ha, hgave⟩ | ⟨_, _, _, _, -, -, hrenew, -⟩ |
    ⟨_, -, hrevoke⟩ | ⟨_, htarget⟩
  · rw [ha]
    exact hgave
  · rw [hrenew]
    rfl
  · rw [hrevoke]
    rfl
  · rw [htarget]
    rfl

/-- Where requests begin: they hold no row, have given nothing, and write only what they draw. -/
theorem enter_cases (env : Env) (job : Job) :
    (∃ a, enter env job = .done a ∧ (Place.done a).gave = none) ∨
      (PlaceHolds env w (enter env job) ∧ (enter env job).gave = none ∧
        ∀ rawKey, (enter env job).draw = some rawKey → job.draw = some rawKey) := by
  have hcredential : ∀ (use : Use) (credential : Credential),
      (∀ rawKey, use.draw = some rawKey → job.draw = some rawKey) →
      (∃ a, credentialPlace env use credential = .done a ∧ (Place.done a).gave = none) ∨
        (PlaceHolds env w (credentialPlace env use credential) ∧
          (credentialPlace env use credential).gave = none ∧
            ∀ rawKey, (credentialPlace env use credential).draw = some rawKey →
              job.draw = some rawKey) := by
    intro use credential hdraw
    cases credential with
    | anonymous => exact .inl ⟨_, rfl, rfl⟩
    | bearer key => exact .inr ⟨trivial, rfl, hdraw⟩
    | session =>
      cases use with
      | refresh | logout | deactivate => exact .inl ⟨_, rfl, rfl⟩
  cases job with
  | mint | elapse => exact .inr ⟨trivial, rfl, fun _ hdraw => hdraw⟩
  | refresh credential hours rawKey =>
    exact hcredential (.refresh hours rawKey) credential fun _ hdraw => hdraw
  | logout credential => exact hcredential .logout credential fun _ hdraw => hdraw
  | deactivate credential user =>
    exact hcredential (.deactivate user) credential fun _ hdraw => hdraw
  | login l =>
    rw [enter]
    by_cases hempty : strip l.username = [] ∨ l.password = []
    · rw [if_pos hempty]
      exact .inl ⟨_, rfl, rfl⟩
    · rw [if_neg hempty]
      by_cases hallowed : ¬ l.isAllowed
      · rw [if_pos hallowed]
        exact .inl ⟨_, rfl, rfl⟩
      · rw [if_neg hallowed]
        exact .inr ⟨trivial, rfl, fun _ hdraw => hdraw⟩

theorem holds_enter (hnew : ∀ rawKey ∈ job.draw, ∀ t ∈ w.tokens,
    t.hashedKey ≠ env.sha256 rawKey.text) : Holds env w job (enter env job) := by
  rcases enter_cases (w := w) env job with ⟨a, ha, hgave⟩ | ⟨hplace, hgave, hdraw⟩
  · rw [ha]
    exact holds_done hgave
  · refine ⟨hdraw, ?_, ?_, hplace⟩
    · intro text htext
      rw [hgave] at htext
      cases htext
    · intro rawKey hraw
      exact hnew rawKey (hdraw rawKey hraw)

theorem Sound.change {y : Server Job Place World} (h : Sound env y) {i : ℕ} {p : Place}
    (hclear : ClearTurn env y (.run i)) (hi : y.requests[i]? = some (job, p)) :
    Change env job y.state (p.next env y.state).2 :=
  Place.change (h.request hi).draw (hclear (job, p) hi)

theorem Sound.step {y : Server Job Place World} {turn : Turn Job} (h : Sound env y)
    (hclear : ClearTurn env y turn) :
    Sound env (y.step (enter env) (Place.next env) turn) := by
  cases turn with
  | start job =>
    apply Server.Invariant.start h fun _ _ _ _ => Differ.symm
    · exact holds_enter fun rawKey hraw => (hclear rawKey hraw).1
    · intro j job' q hj digest hdigest
      obtain ⟨rawKey, hraw, rfl⟩ := Option.map_eq_some_iff.mp hdigest
      exact (hclear rawKey hraw).2 (job', q) (List.mem_of_getElem? hj)
  | run i =>
    apply Server.Invariant.run h fun _ _ _ _ => Differ.symm
    intro job p hi
    have hchange : Change env job y.state (p.next env y.state).2 := h.change hclear hi
    exact
      { state := hchange.tables h.state
        own := (h.request hi).next h.state hchange
        other := fun hij hj => (h.request hj).change hchange (h.pair hij hi hj)
        pair := fun hij hj digest hdigest => h.pair hij hi hj digest hdigest }

theorem sound_run {y : Server Job Place World} {turns : List (Turn Job)} (h : Sound env y)
    (hclear : ClearFrom env y turns) : Sound env (y.run (enter env) (Place.next env) turns) := by
  induction turns generalizing y with
  | nil => exact h
  | cons turn turns ih => exact ih (h.step hclear.1) hclear.2

theorem sound_site {now : ℤ} {users : List User} {turns : List (Turn Job)}
    (hclear : Clear env now users turns) : Sound env (Site env now users turns) := by
  refine sound_run ?_ hclear
  refine ⟨⟨List.nodup_nil, ?_, ?_⟩, ?_, ?_⟩
  · exact fun t ht => absurd ht List.not_mem_nil
  · exact fun user t ht => absurd ht List.not_mem_nil
  · intro i job p hi
    cases hi
  · intro i j job p job' q _ hi
    cases hi

/-! ### A key that has been given -/

/-- The key is in an active row. -/
def Live (digest : Str) (w : World) (id : ℕ) : Prop :=
  ∃ t ∈ w.tokens, t.id = id ∧ t.hashedKey = digest ∧ t.isActive = true

theorem Change.live {digest : Str} {id : ℕ} (h : Change env job w w')
    (hdigest : job.digest env ≠ some digest) (hlive : Live digest w' id) : Live digest w id := by
  obtain ⟨t', ht', hid, hkey, hactive⟩ := hlive
  obtain ⟨t, ht, hfollows, hbefore⟩ := h.row_of_other hdigest ht' hkey
  exact ⟨t, ht, hfollows.id.symm.trans hid, hbefore, hfollows.active hactive⟩

/-- Nobody writes a key again that a request has been given. -/
theorem live_back {y : Server Job Place World} (h : Sound env y) {turns : List (Turn Job)}
    (hclear : ClearFrom env y turns) {i : ℕ} {text : Str} {user : ℕ} {expiresAt : ℤ}
    (hi : y.requests[i]? = some (job, .done (.token text user expiresAt))) {id : ℕ}
    (hlive : Live (env.sha256 text) (y.run (enter env) (Place.next env) turns).state id) :
    Live (env.sha256 text) y.state id := by
  induction turns generalizing y with
  | nil => exact hlive
  | cons turn turns ih =>
    have hstays : (y.step (enter env) (Place.next env) turn).requests[i]? =
        some (job, .done (.token text user expiresAt)) :=
      Server.stays hi (fun _ => rfl) [turn]
    have hlater := ih (h.step hclear.1) hclear.2 hstays hlive
    cases turn with
    | start job' => exact hlater
    | run k =>
      cases hk : y.requests[k]? with
      | none =>
        simp only [Server.step, hk] at hlater
        exact hlater
      | some r =>
        obtain ⟨job', p⟩ := r
        rw [Server.step_run hk] at hlater
        by_cases hki : k = i
        · subst hki
          rw [hi] at hk
          cases hk
          exact hlater
        · obtain ⟨rawKey, hdraw, rfl⟩ := (h.request hi).gave text rfl
          refine (h.change hclear.1 hk).live ?_ hlater
          intro heq
          exact h.pair hki hk hi _ heq (digest_of_draw hdraw)

theorem program_eq_ret {p : Place} {a : Answer} (h : p.program env = .ret a) : p = .done a := by
  cases p with
  | done b => exact congrArg Place.done (Prog.ret.inj h)
  | signIn | find | save | insert | look | touch | renew | revoke | target | closeUser
  | closeTokens | mint | elapse => cases h

theorem answered_place {now : ℤ} {users : List User} {turns : List (Turn Job)} {i : ℕ} {a : Answer}
    (h : (served env now users turns).Answered i job a) :
    (Site env now users turns).requests[i]? = some (job, .done a) := by
  rw [Server.Answered, served_eq, Server.requests_map] at h
  obtain ⟨⟨job', p⟩, hp, heq⟩ := Option.map_eq_some_iff.mp h
  obtain ⟨rfl, hprogram⟩ := Prod.mk.inj heq
  have hdone : p = .done a := program_eq_ret hprogram
  rw [hp, hdone]

theorem state_served (env : Env) (now : ℤ) (users : List User) (turns : List (Turn Job)) :
    (served env now users turns).state = (Site env now users turns).state := by
  rw [served_eq]
  rfl

/-- A row is in the hands of a login or a refresh for the user. -/
def Place.Holding (user : ℕ) : Option ApiToken → Place → Prop
  | found, .save _ user' _ row => user' = user ∧ found = some row
  | found, .insert _ user' _ => user' = user ∧ found = none
  | found, .touch row (.refresh _ _) => row.user = user ∧ found = some row
  | found, .renew _ _ row => row.user = user ∧ found = some row
  | _, _ => False

/-- A key is given by the write of a row, or by an insertion. -/
theorem given_next {p : Place} {text : Str} {user : ℕ} {expiresAt : ℤ}
    (hp : p ≠ .done (.token text user expiresAt))
    (h : (p.next env w).1 = .done (.token text user expiresAt)) :
    (∃ l, p = .insert l user expiresAt) ∨
      ∃ rawKey row, p.draw = some rawKey ∧ p.Holding user (some row) ∧
        (p.next env w).2 = saveToken row.id (Logins.renew env rawKey expiresAt) w := by
  have hnot : ∀ {q : Place}, q.gave = none → q ≠ .done (.token text user expiresAt) := by
    intro q hq heq
    rw [heq] at hq
    cases hq
  cases p with
  | done a => exact absurd h hp
  | revoke | closeUser | closeTokens | mint | elapse => cases h
  | insert l user' expiresAt' =>
    cases h
    exact .inl ⟨l, rfl⟩
  | save l user' expiresAt' row =>
    cases h
    exact .inr ⟨l.rawKey, row, rfl, ⟨rfl, rfl⟩, rfl⟩
  | renew rawKey hours row =>
    cases h
    exact .inr ⟨rawKey, row, rfl, ⟨rfl, rfl⟩, rfl⟩
  | touch row use => exact absurd h (hnot (gave_place env use (some row)))
  | signIn l =>
    refine absurd h (hnot ?_)
    show (signInPlace env l (Logins.signIn env l w)).gave = none
    rcases signInPlace_cases env l (Logins.signIn env l w) with ⟨a, ha, hgave⟩ | ⟨u, hours, hu⟩
    · rw [ha]
      exact hgave
    · rw [hu]
      rfl
  | find l user' hours =>
    refine absurd h (hnot ?_)
    show (upsertPlace l user'.id (expiry hours w.now) (existingLogin user'.id w)).gave = none
    cases existingLogin user'.id w <;> rfl
  | look rawKey use =>
    refine absurd h (hnot ?_)
    show (lookPlace use (lookup env rawKey w)).gave = none
    rcases lookPlace_cases use (lookup env rawKey w) with ⟨a, ha, hgave⟩ | ⟨t, -, htouch⟩
    · rw [ha]
      exact hgave
    · rw [htouch]
      rfl
  | target user' =>
    refine absurd h (hnot ?_)
    show (targetPlace (findUser w user')).gave = none
    cases findUser w user' <;> rfl

/-- What a request holds it has read as an active row of the user; it holds none where there
was no login row to read. -/
theorem holding_next {p : Place} {user : ℕ} {found : Option ApiToken} (hp : ¬ p.Holding user found)
    (h : (p.next env w).1.Holding user found) :
    (found = none ∧ ∀ t ∈ w.tokens, isLogin user t = false) ∨
      ∃ row, found = some row ∧ row ∈ w.tokens ∧ row.user = user ∧ row.isActive = true := by
  cases p with
  | done | save | insert | renew | revoke | closeUser | closeTokens | mint | elapse =>
    exact (h.elim : False).elim
  | signIn l =>
    have hplace : (signInPlace env l (Logins.signIn env l w)).Holding user found := h
    rcases signInPlace_cases env l (Logins.signIn env l w) with ⟨a, ha, -⟩ | ⟨u, hours, hu⟩
    · rw [ha] at hplace
      exact hplace.elim
    · rw [hu] at hplace
      exact hplace.elim
  | target user' =>
    have hplace : (targetPlace (findUser w user')).Holding user found := h
    cases htarget : findUser w user' with
    | none =>
      rw [htarget] at hplace
      exact hplace.elim
    | some target =>
      rw [htarget] at hplace
      exact hplace.elim
  | find l user' hours =>
    have hplace : (upsertPlace l user'.id (expiry hours w.now)
        (existingLogin user'.id w)).Holding user found := h
    cases hexisting : existingLogin user'.id w with
    | none =>
      rw [hexisting] at hplace
      obtain ⟨rfl, rfl⟩ := hplace
      exact .inl ⟨rfl, existingLogin_none hexisting⟩
    | some row =>
      rw [hexisting] at hplace
      obtain ⟨rfl, rfl⟩ := hplace
      obtain ⟨hrow, hlogin⟩ := existingLogin_some hexisting
      obtain ⟨huser, -, hactive⟩ := isLogin_iff.mp hlogin
      exact .inr ⟨row, rfl, hrow, huser, hactive⟩
  | look rawKey use =>
    have hplace : (lookPlace use (lookup env rawKey w)).Holding user found := h
    rcases lookPlace_cases use (lookup env rawKey w) with ⟨a, ha, -⟩ | ⟨t, ht, htouch⟩
    · rw [ha] at hplace
      exact hplace.elim
    · rw [htouch] at hplace
      cases use with
      | logout | deactivate => exact hplace.elim
      | refresh hours rawKey' =>
        obtain ⟨huser, rfl⟩ := hplace
        obtain ⟨hrow, -, -, hreason⟩ := lookup_accepted ht
        exact .inr ⟨t, rfl, hrow, huser, active_of_accepted hreason⟩
  | touch row use =>
    have hplace : (use.place env (some row)).Holding user found := h
    rcases usePlace_cases env use (some row) with ⟨a, ha, -⟩ |
      ⟨rawKey, hours, hours', row', rfl, hsame, hrenew, -⟩ | ⟨row', -, hrevoke⟩ | ⟨user', htarget⟩
    · rw [ha] at hplace
      exact hplace.elim
    · cases hsame
      rw [hrenew] at hplace
      exact absurd hplace hp
    · rw [hrevoke] at hplace
      exact hplace.elim
    · rw [htarget] at hplace
      exact hplace.elim

theorem enter_not_holding (env : Env) (user : ℕ) (found : Option ApiToken) (job : Job) :
    ¬ (enter env job).Holding user found := by
  have hcredential : ∀ (use : Use) (credential : Credential),
      ¬ (credentialPlace env use credential).Holding user found := by
    intro use credential h
    cases credential with
    | anonymous | bearer => exact h.elim
    | session =>
      cases use with
      | refresh | logout | deactivate => exact h.elim
  cases job with
  | mint | elapse => exact fun h => h.elim
  | refresh credential hours rawKey => exact hcredential _ _
  | logout credential => exact hcredential _ _
  | deactivate credential user' => exact hcredential _ _
  | login l =>
    intro h
    rw [enter] at h
    by_cases hempty : strip l.username = [] ∨ l.password = []
    · rw [if_pos hempty] at h
      exact h.elim
    · rw [if_neg hempty] at h
      by_cases hallowed : ¬ l.isAllowed
      · rw [if_pos hallowed] at h
        exact h.elim
      · rw [if_neg hallowed] at h
        exact h.elim

theorem enter_not_given (env : Env) (job : Job) (text : Str) (user : ℕ) (expiresAt : ℤ) :
    enter env job ≠ .done (.token text user expiresAt) := by
  intro h
  rcases enter_cases (w := { now := 0 }) env job with ⟨a, ha, hgave⟩ | ⟨-, hgave, -⟩
  · rw [ha] at h
    rw [h] at hgave
    cases hgave
  · rw [h] at hgave
    cases hgave

theorem site_crossed {B : Place → Prop} (henter : ∀ job, ¬ B (enter env job)) {now : ℤ}
    {users : List User} {turns : List (Turn Job)} {i : ℕ} {p : Place}
    (h : (Site env now users turns).requests[i]? = some (job, p)) (hB : B p) :
    ∃ earlier later q, turns = earlier ++ .run i :: later ∧
      (Site env now users earlier).requests[i]? = some (job, q) ∧ ¬ B q ∧
        B (q.next env (Site env now users earlier).state).1 := by
  apply Server.crossed henter ?_ h hB
  intro job p hi
  cases hi

/-! ### One key -/

/-- A user has one login key when no call is under way, and a key that was given before a login
or a refresh came is rejected once this has given another. -/
structure OneLoginKey (env : Env) (now : ℤ) (users : List User) (turns : List (Turn Job)) :
    Prop where
  one : (∀ r ∈ (served env now users turns).requests, ∃ a, r.2 = .ret a) →
    ∀ key key' t t', lookup env key (served env now users turns).state = .accepted t →
      lookup env key' (served env now users turns).state = .accepted t' →
        t.tokenType = .login → t'.tokenType = .login → t.user = t'.user → t = t'
  superseded : ∀ earlier later, turns = earlier ++ later →
    ∀ i j job job' key key' user expiresAt expiresAt',
      (served env now users earlier).Answered i job (.token key user expiresAt) →
      (served env now users earlier).requests.length ≤ j →
      (served env now users turns).Answered j job' (.token key' user expiresAt') →
        ∀ t, lookup env key (served env now users turns).state ≠ .accepted t

theorem site_append (env : Env) (now : ℤ) (users : List User) (turns later : List (Turn Job)) :
    Site env now users (turns ++ later) =
      (Site env now users turns).run (enter env) (Place.next env) later :=
  Server.run_append _ turns later

section superseded

variable {now : ℤ} {users : List User} {turns later : List (Turn Job)} {i : ℕ} {text : Str}
  {user : ℕ} {expiresAt : ℤ}

/-- A key that is live now has been live in the same row since it was given. -/
theorem live_since {id : ℕ} (hclear : Clear env now users (turns ++ later))
    (hi : (Site env now users turns).requests[i]? = some (job, .done (.token text user expiresAt)))
    (hlive : Live (env.sha256 text) (Site env now users (turns ++ later)).state id) :
    Live (env.sha256 text) (Site env now users turns).state id := by
  obtain ⟨hturns, hlater⟩ := clearFrom_append hclear
  rw [site_append] at hlive
  exact live_back (sound_site hturns) hlater hi hlive

theorem given_since
    (hi : (Site env now users turns).requests[i]? = some (job, .done (.token text user expiresAt))) :
    (Site env now users (turns ++ later)).requests[i]? =
      some (job, .done (.token text user expiresAt)) := by
  rw [site_append]
  exact Server.stays hi (fun _ => rfl) later

/-- A live key is in an active login row of its user. -/
theorem Live.login {y : Server Job Place World} {id : ℕ} (h : Live (env.sha256 text) y.state id)
    (hsound : Sound env y) (hi : y.requests[i]? = some (job, .done (.token text user expiresAt))) :
    ∃ t ∈ y.state.tokens, t.id = id ∧ isLogin user t = true := by
  obtain ⟨t, ht, hid, hkey, hactive⟩ := h
  obtain ⟨htype, huser⟩ := (hsound.request hi).place t ht hkey
  exact ⟨t, ht, hid, isLogin_iff.mpr ⟨huser, htype, hactive⟩⟩

/-- A row that has been given another key is not live with this one. -/
theorem not_live_renewed {digest : Str} {rawKey : RawKey} {pk : ℕ} {expiresAt : ℤ}
    (hdigest : env.sha256 rawKey.text ≠ digest) :
    ¬ Live digest (saveToken pk (Logins.renew env rawKey expiresAt) w) pk := by
  intro h
  obtain ⟨t', ht', hid, hkey, -⟩ := h
  obtain ⟨t, ht, rfl⟩ := Table.mem_alter ht'
  by_cases hpk : t.id = pk
  · rw [if_pos hpk] at hkey
    exact hdigest hkey
  · rw [if_neg hpk] at hid
    exact hpk hid

/-- The login row that a request writes to is the active one of the user, as it read it. -/
theorem row_of_holding {q : Place} {row : ApiToken}
    (hq : PlaceHolds env w q) (hdraw : q.draw ≠ none) (hgiven : (q.next env w).1.gave ≠ none)
    (hholding : q.Holding user (some row)) : row.tokenType = .login := by
  cases q with
  | done | signIn | find | insert | look | revoke | target | closeUser | closeTokens | mint | elapse =>
    first
      | exact hholding.elim
      | cases hholding.2
  | save l user' expiresAt' row' =>
    obtain ⟨-, hsame⟩ := hholding
    cases hsame
    exact hq.2.1
  | renew rawKey hours row' =>
    obtain ⟨-, hsame⟩ := hholding
    cases hsame
    exact hq.2
  | touch row' use => exact absurd (gave_place env use (some row')) hgiven

/-- A later call has read the row that the key is live in. -/
theorem read_live_row {earlier toWrite rest : List (Turn Job)} {j : ℕ} {job' : Job} {q : Place}
    {found : Option ApiToken} {id : ℕ} (hclear : Clear env now users (toWrite ++ rest))
    (hturns : earlier ++ later = toWrite ++ rest)
    (hi : (Site env now users earlier).requests[i]? =
      some (job, .done (.token text user expiresAt)))
    (hj : (Site env now users earlier).requests.length ≤ j)
    (hq : (Site env now users toWrite).requests[j]? = some (job', q))
    (hholding : q.Holding user found)
    (hlive : Live (env.sha256 text) (Site env now users (toWrite ++ rest)).state id) :
    ∃ row, found = some row ∧ (row.tokenType = .login → row.id = id) := by
  obtain ⟨toRead, afterRead, p, hread, hp, hnot, hhas⟩ :=
    site_crossed (enter_not_holding env user found) hq hholding
  have hsplit : earlier ++ later = toRead ++ (.run j :: afterRead ++ rest) := by
    rw [hturns, hread, List.append_assoc]
  obtain ⟨between, rfl⟩ := Server.turns_since hsplit hj hp
  rw [hread, List.append_assoc] at hclear hlive
  have hgiven : (Site env now users (earlier ++ between)).requests[i]? =
      some (job, .done (.token text user expiresAt)) := given_since hi
  have hsound : Sound env (Site env now users (earlier ++ between)) :=
    sound_site (clearFrom_append hclear).1
  obtain ⟨t, ht, hid, hlogin⟩ := (live_since hclear hgiven hlive).login hsound hgiven
  rcases holding_next hnot hhas with ⟨-, hnone⟩ | ⟨row, hfound, hrow, huser, hactive⟩
  · rw [hnone t ht] at hlogin
    cases hlogin
  · refine ⟨row, hfound, ?_⟩
    intro htype
    have hrowLogin : isLogin user row = true := isLogin_iff.mpr ⟨huser, htype, hactive⟩
    exact (hsound.state.sole user row hrow t ht hrowLogin hlogin).trans hid

theorem superseded_dead {earlier : List (Turn Job)} {j : ℕ} {job' : Job} {text' : Str}
    {expiresAt' : ℤ} {id : ℕ} (hclear : Clear env now users turns)
    (hturns : earlier ++ later = turns)
    (hi : (Site env now users earlier).requests[i]? =
      some (job, .done (.token text user expiresAt)))
    (hj : (Site env now users earlier).requests.length ≤ j)
    (hgiven : (Site env now users turns).requests[j]? =
      some (job', .done (.token text' user expiresAt'))) :
    ¬ Live (env.sha256 text) (Site env now users turns).state id := by
  intro hlive
  obtain ⟨toWrite, afterWrite, q, rfl, hq, hne, hnext⟩ :=
    site_crossed (B := fun p => p = .done (.token text' user expiresAt'))
      (fun job => enter_not_given env job text' user expiresAt') hgiven rfl
  have hsound : Sound env (Site env now users toWrite) := sound_site (clearFrom_append hclear).1
  rcases given_next hne hnext with ⟨l, rfl⟩ | ⟨rawKey, row, hdraw, hholding, hstate⟩
  · obtain ⟨row, hrow, -⟩ := read_live_row hclear hturns hi hj hq ⟨rfl, rfl⟩ hlive
    cases hrow
  · obtain ⟨row', hrow, hid⟩ := read_live_row hclear hturns hi hj hq hholding hlive
    cases hrow
    have htype : row.tokenType = .login := by
      apply row_of_holding (hsound.request hq).place ?_ ?_ hholding
      · rw [hdraw]
        exact Option.some_ne_none _
      · rw [hnext]
        exact Option.some_ne_none _
    -- behind the write the row has another key
    have hafter : (Site env now users (toWrite ++ [.run j])).state =
        saveToken row.id (Logins.renew env rawKey expiresAt')
          (Site env now users toWrite).state := by
      rw [site_append]
      show (Server.step (enter env) (Place.next env) _ (.run j)).state = _
      rw [Server.step_run hq]
      exact hstate
    have hsince : toWrite ++ .run j :: afterWrite = (toWrite ++ [.run j]) ++ afterWrite := by
      rw [List.append_assoc, List.singleton_append]
    obtain ⟨between, rfl⟩ := Server.turns_since hturns hj hq
    have hgivenWrite : (Site env now users (earlier ++ between)).requests[i]? =
        some (job, .done (.token text user expiresAt)) := given_since hi
    rw [hsince] at hclear hlive
    have hlive' := live_since hclear (given_since hgivenWrite) hlive
    rw [hafter, ← hid htype] at hlive'
    refine not_live_renewed ?_ hlive'
    intro heq
    have hij : j ≠ i := by
      have hlt := (List.getElem?_eq_some_iff.mp hi).1
      omega
    obtain ⟨rawKey', hdraw', htext⟩ := (hsound.request hgivenWrite).gave text rfl
    apply hsound.pair hij hq hgivenWrite _ (digest_of_draw ((hsound.request hq).draw rawKey hdraw))
    rw [digest_of_draw hdraw', htext, heq]

end superseded

/-- **One login key for each user**, as long as every turn is clear. -/
theorem one_login_key (env : Env) (now : ℤ) (users : List User) (turns : List (Turn Job))
    (hclear : Clear env now users turns) : OneLoginKey env now users turns where
  one _ key key' t t' hkey hkey' htype htype' huser := by
    have hsound : Sound env (Site env now users turns) := sound_site hclear
    rw [state_served] at hkey hkey'
    obtain ⟨ht, -, -, hreason⟩ := lookup_accepted hkey
    obtain ⟨ht', -, -, hreason'⟩ := lookup_accepted hkey'
    apply hsound.state.ids.eq_of_key ht ht'
    apply hsound.state.sole t.user t ht t' ht'
    · exact isLogin_iff.mpr ⟨rfl, htype, active_of_accepted hreason⟩
    · exact isLogin_iff.mpr ⟨huser.symm, htype', active_of_accepted hreason'⟩
  superseded earlier later hturns i j job job' key key' user expiresAt expiresAt' hi hj hgiven := by
    intro t hkey
    rw [state_served] at hkey
    obtain ⟨ht, -, hdigest, hreason⟩ := lookup_accepted hkey
    have hj' : (Site env now users earlier).requests.length ≤ j := by
      rw [served_eq] at hj
      simpa [Server.map] using hj
    exact superseded_dead hclear hturns.symm (answered_place hi) hj' (answered_place hgiven)
      ⟨t, ht, rfl, hdigest, active_of_accepted hreason⟩

/-! ### Offboarding is final -/

/-- No row that is there comes back, and no user. -/
structure Closes (w w' : World) : Prop where
  fresh : w.nextToken ≤ w'.nextToken
  rows : ∀ t' ∈ w'.tokens, w.nextToken ≤ t'.id ∨
    ∃ t ∈ w.tokens, t.id = t'.id ∧ t.user = t'.user ∧ (t'.isActive = true → t.isActive = true)
  users : ∀ user, (findUser w' user).any User.isActive = true →
    (findUser w user).any User.isActive = true

theorem Closes.refl (w : World) : Closes w w :=
  ⟨le_rfl, fun t ht => .inr ⟨t, ht, rfl, rfl, fun h => h⟩, fun _ h => h⟩

theorem Closes.trans {w'' : World} (h : Closes w w') (h' : Closes w' w'') : Closes w w'' where
  fresh := h.fresh.trans h'.fresh
  rows t'' ht'' := by
    rcases h'.rows t'' ht'' with hnew | ⟨t', ht', hid', huser', hactive'⟩
    · exact .inl (h.fresh.trans hnew)
    · rcases h.rows t' ht' with hnew | ⟨t, ht, hid, huser, hactive⟩
      · exact .inl (hid' ▸ hnew)
      · exact .inr ⟨t, ht, hid.trans hid', huser.trans huser', fun h => hactive (hactive' h)⟩
  users user hactive := h.users user (h'.users user hactive)

theorem active_of_deactivateUser {user id : ℕ}
    (h : (findUser (deactivateUser user w) id).any User.isActive = true) :
    (findUser w id).any User.isActive = true := by
  simp only [findUser, deactivateUser] at h
  rw [Table.get_alter fun u : User => (rfl : { u with isActive := false }.id = u.id)] at h
  by_cases hid : id = user
  · rw [if_pos hid] at h
    cases hget : Table.get User.id w.users user with
    | none => simp [hget] at h
    | some u => simp [hget] at h
  · rwa [if_neg hid] at h

/-- A request that has read a row before it was revoked does not bring it back. -/
theorem Place.closes (p : Place) (w : World) : Closes w (p.next env w).2 where
  fresh := by
    cases p with
    | insert | mint => exact Nat.le_succ _
    | _ => exact le_rfl
  rows t' ht' := by
    obtain ⟨job, hjob⟩ : ∃ job : Job, job.draw = p.draw := by
      cases p.draw with
      | none => exact ⟨.elapse 0, rfl⟩
      | some rawKey => exact ⟨.mint 0 .auth rawKey, rfl⟩
    have hdraw : ∀ rawKey, p.draw = some rawKey → job.draw = some rawKey := fun _ h => hjob.trans h
    by_cases hinserts : p.inserts = none
    · have hchange : Change env job w (p.next env w).2 :=
        Place.change hdraw fun user huser => by simp [hinserts] at huser
      rcases hchange.origin t' ht' with ⟨t, ht, hfollows⟩ | hinserted
      · exact .inr ⟨t, ht, hfollows.id.symm, hfollows.user.symm, hfollows.active⟩
      · exact .inl hinserted.id.ge
    · cases p with
      | insert l user expiresAt =>
        rcases List.mem_append.mp ht' with ht | ht
        · exact .inr ⟨t', ht, rfl, rfl, fun h => h⟩
        · rw [List.mem_singleton.mp ht]
          exact .inl le_rfl
      | _ => exact absurd rfl hinserts
  users id hactive := by
    cases p with
    | closeUser user => exact active_of_deactivateUser hactive
    | _ => exact hactive

theorem user_of_accepted {t : ApiToken} (h : rejectionReason w t = none) :
    (findUser w t.user).any User.isActive = true := by
  by_contra hinactive
  rw [rejectionReason] at h
  by_cases hrevoked : t.revokedAt ≠ none ∨ t.isActive = false
  · rw [if_pos hrevoked] at h
    cases h
  · rw [if_neg hrevoked] at h
    cases hexpired : t.expiresAt.filter (· < w.now) with
    | some expiredAt => simp [hexpired] at h
    | none => simp [hexpired, hinactive] at h

/-- A key that is accepted later has a user who was active, in a row that was active or that was
not there. -/
def OffboardedForGood (env : Env) (w w' : World) : Prop :=
  ∀ key t', lookup env key w' = .accepted t' →
    (findUser w t'.user).any User.isActive = true ∧
      (w.nextToken ≤ t'.id ∨ ∃ t ∈ w.tokens, t.id = t'.id ∧ t.user = t'.user ∧ t.isActive = true)

/-- **Offboarding is final**, whatever calls are under way: no key is accepted again that was
revoked, and none whose user was deactivated. -/
theorem offboarding_final (env : Env) (now : ℤ) (users : List User) (turns later : List (Turn Job)) :
    OffboardedForGood env (served env now users turns).state
      (served env now users (turns ++ later)).state := by
  intro key t' hkey
  rw [state_served] at hkey ⊢
  obtain ⟨ht', -, -, hreason⟩ := lookup_accepted hkey
  have hactive : t'.isActive = true := active_of_accepted hreason
  have hclosed : Closes (Site env now users turns).state
      (Site env now users (turns ++ later)).state := by
    rw [site_append]
    exact Server.run_rel Closes.refl (fun _ _ _ => Closes.trans) Place.closes later
  constructor
  · exact hclosed.users _ (user_of_accepted hreason)
  · rcases hclosed.rows t' ht' with hnew | ⟨t, ht, hid, huser, hback⟩
    · exact .inl hnew
    · exact .inr ⟨t, ht, hid, huser, hback hactive⟩

/-! ### Two logins that meet -/

/-- One user, whose password is always right; digests that leave their text as it is. -/
def plainEnv : Env where
  sha256 := id
  checkPassword _ _ := some 1
  expiryHours := 24
  maxHours := 168

def alice : User := { id := 1, isStaff := false, isActive := true }

def loginWith (rawKey : RawKey) : Login where
  username := "alice".toList
  password := "secret123".toList
  hours := .absent
  rawKey := rawKey
  isAllowed := true
  lockedOut := false

def firstKey : RawKey := ⟨"first-key-".toList, by decide, by decide⟩

def secondKey : RawKey := ⟨"second-key".toList, by decide, by decide⟩

def thirdKey : RawKey := ⟨"third-key-".toList, by decide, by decide⟩

/-- The request `i` takes `n` turns. -/
def turnsOf (i n : ℕ) : List (Turn Job) := List.replicate n (.run i)

/-- Two logins, one after the other, a refresh and a logout. -/
def inTurn : List (Turn Job) :=
  .start (.login (loginWith firstKey)) :: turnsOf 0 3 ++
    .start (.login (loginWith secondKey)) :: turnsOf 1 3 ++
    .start (.refresh (.bearer secondKey.text) .absent thirdKey) :: turnsOf 2 3 ++
    .start (.logout (.bearer thirdKey.text)) :: turnsOf 3 3

theorem inTurn_one_login_key : OneLoginKey plainEnv 0 [alice] inTurn :=
  one_login_key plainEnv 0 [alice] inTurn (by decide +kernel)

/-- Two logins that both find no row, and insert one each. -/
def together : List (Turn Job) :=
  .start (.login (loginWith firstKey)) :: .start (.login (loginWith secondKey)) ::
    turnsOf 0 2 ++ turnsOf 1 2 ++ turnsOf 0 1 ++ turnsOf 1 1

/-- Both keys are good. -/
theorem together_two_keys : ¬ ∀ env now users turns, OneLoginKey env now users turns := by
  intro h
  have hquiet : ∀ r ∈ (served plainEnv 0 [alice] together).requests, ∃ a, r.2 = .ret a := by
    have hplaces : ∀ r ∈ (Site plainEnv 0 [alice] together).requests, r.2.gave ≠ none := by
      decide +kernel
    rw [served_eq]
    intro r hr
    obtain ⟨⟨job, p⟩, hp, rfl⟩ := List.mem_map.mp hr
    have hgave : p.gave ≠ none := hplaces (job, p) hp
    cases p with
    | done a => exact ⟨a, rfl⟩
    | signIn | find | save | insert | look | touch | renew | revoke | target | closeUser
    | closeTokens | mint | elapse => exact absurd rfl hgave
  have hkeys : ∃ t ∈ (Site plainEnv 0 [alice] together).state.tokens,
      ∃ t' ∈ (Site plainEnv 0 [alice] together).state.tokens,
        lookup plainEnv firstKey.text (Site plainEnv 0 [alice] together).state = .accepted t ∧
          lookup plainEnv secondKey.text (Site plainEnv 0 [alice] together).state = .accepted t' ∧
            t.tokenType = .login ∧ t'.tokenType = .login ∧ t.user = t'.user ∧ t ≠ t' := by
    decide +kernel
  obtain ⟨t, -, t', -, hkey, hkey', htype, htype', huser, hne⟩ := hkeys
  rw [← state_served] at hkey hkey'
  exact hne ((h plainEnv 0 [alice] together).one hquiet _ _ t t' hkey hkey' htype htype' huser)

end CwStation.Logins
