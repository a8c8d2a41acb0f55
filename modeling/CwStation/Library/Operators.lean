import Mathlib.Data.List.Basic
import Mathlib.Data.List.Chain
import Mathlib.Tactic.Common

/-! # Binary operators by precedence

A level of a grammar with infix operators is a chain: operands of the next tighter level with
operators of this level between them, read from the left. A parser returns what it read and
the tokens behind it. -/

namespace CwStation.Operators

variable {τ α : Type*}

abbrev Parser (τ α : Type*) := List τ → Option (α × List τ)

/-- The operators and operands behind a first operand. The counter bounds their number. -/
def chainFrom (op : τ → Option (α → α → α)) (operand : Parser τ α) : ℕ → α → Parser τ α
  | 0, a, ts => some (a, ts)
  | _ + 1, a, [] => some (a, [])
  | n + 1, a, t :: ts =>
      match op t with
      | none => some (a, t :: ts)
      | some f =>
          match operand ts with
          | none => none
          | some (b, rest) => chainFrom op operand n (f a b) rest

/-- `operand (op operand)*`, associating to the left. -/
def chain (op : τ → Option (α → α → α)) (operand : Parser τ α) : Parser τ α := fun ts =>
  match operand ts with
  | none => none
  | some (a, rest) => chainFrom op operand rest.length a rest

/-! ## What is read -/

/-- The parser reads `a` from the tokens `ts` wherever a token of `follow`, or the end, is
behind them. -/
def Reads (p : Parser τ α) (follow : τ → Prop) (ts : List τ) (a : α) : Prop :=
  ∀ rest : List τ, (∀ t ∈ rest.head?, follow t) → p (ts ++ rest) = some (a, rest)

theorem Reads.whole {p : Parser τ α} {follow : τ → Prop} {ts : List τ} {a : α}
    (h : Reads p follow ts a) : p ts = some (a, []) := by
  have hend := h [] (by simp)
  rwa [List.append_nil] at hend

theorem Reads.mono {p : Parser τ α} {follow follow' : τ → Prop} {ts : List τ} {a : α}
    (h : Reads p follow ts a) (hsub : ∀ t, follow' t → follow t) : Reads p follow' ts a :=
  fun rest hrest => h rest fun t ht => hsub t (hrest t ht)

/-- One more operand of a chain: the operator, what it does, the operand's tokens and value. -/
structure Link (τ α : Type*) where
  token : τ
  apply : α → α → α
  tokens : List τ
  value : α

/-- The value of a chain. -/
def fold (a : α) (links : List (Link τ α)) : α :=
  links.foldl (fun acc link => link.apply acc link.value) a

/-- The tokens behind the first operand. -/
def behind (links : List (Link τ α)) : List τ :=
  links.flatMap fun link => link.token :: link.tokens

@[simp] theorem fold_nil (a : α) : fold a ([] : List (Link τ α)) = a := rfl

@[simp] theorem fold_cons (a : α) (link : Link τ α) (links : List (Link τ α)) :
    fold a (link :: links) = fold (link.apply a link.value) links := rfl

@[simp] theorem behind_nil : behind ([] : List (Link τ α)) = [] := rfl

@[simp] theorem behind_cons (link : Link τ α) (links : List (Link τ α)) :
    behind (link :: links) = link.token :: (link.tokens ++ behind links) := rfl

section Chain

variable {op : τ → Option (α → α → α)} {operand : Parser τ α} {follow : τ → Prop}

/-- The first token behind an operand of a chain is an operator of the chain, or what may
follow the chain. -/
theorem head_behind {links : List (Link τ α)} {rest : List τ} {t : τ}
    (hop : ∀ link ∈ links, op link.token = some link.apply) (hrest : ∀ t ∈ rest.head?, follow t)
    (ht : t ∈ (behind links ++ rest).head?) : follow t ∨ (op t).isSome = true := by
  cases links with
  | nil => exact .inl (hrest t ht)
  | cons link links =>
    rw [behind_cons, List.cons_append, List.head?_cons, Option.mem_some_iff] at ht
    subst ht
    exact .inr (by rw [hop link (.head _)]; rfl)

theorem chainFrom_eq {links : List (Link τ α)} {n : ℕ} {a : α} {rest : List τ}
    (hop : ∀ link ∈ links, op link.token = some link.apply)
    (hread : ∀ link ∈ links,
      Reads operand (fun t => follow t ∨ (op t).isSome = true) link.tokens link.value)
    (hstop : ∀ t, follow t → op t = none) (hn : links.length ≤ n)
    (hrest : ∀ t ∈ rest.head?, follow t) :
    chainFrom op operand n a (behind links ++ rest) = some (fold a links, rest) := by
  induction links generalizing n a with
  | nil =>
    cases n with
    | zero => rfl
    | succ n =>
      cases rest with
      | nil => rfl
      | cons t rest => simp [chainFrom, hstop t (hrest t rfl)]
  | cons link links ih =>
    cases n with
    | zero => simp at hn
    | succ n =>
      have hbehind : operand (link.tokens ++ (behind links ++ rest)) =
          some (link.value, behind links ++ rest) :=
        hread link (.head _) _ fun t ht =>
          head_behind (fun l hl => hop l (.tail _ hl)) hrest ht
      have hrun := ih (n := n) (a := link.apply a link.value)
        (fun l hl => hop l (.tail _ hl)) (fun l hl => hread l (.tail _ hl))
        (by simpa using hn)
      simp only [behind_cons, List.cons_append, List.append_assoc, chainFrom,
        hop link (.head _), hbehind, fold_cons]
      exact hrun

/-- A chain reads its operands and their operators, and folds them from the left. -/
theorem chain_reads {ts : List τ} {a : α} {links : List (Link τ α)}
    (hfirst : Reads operand (fun t => follow t ∨ (op t).isSome = true) ts a)
    (hop : ∀ link ∈ links, op link.token = some link.apply)
    (hread : ∀ link ∈ links,
      Reads operand (fun t => follow t ∨ (op t).isSome = true) link.tokens link.value)
    (hstop : ∀ t, follow t → op t = none) :
    Reads (chain op operand) follow (ts ++ behind links) (fold a links) := by
  intro rest hrest
  have hlength : links.length ≤ (behind links ++ rest).length := by
    rw [List.length_append]
    refine le_trans ?_ (Nat.le_add_right _ _)
    induction links with
    | nil => simp
    | cons link links ih =>
      have hlinks := ih (fun l hl => hop l (.tail _ hl)) fun l hl => hread l (.tail _ hl)
      simp only [behind_cons, List.length_cons, List.length_append]
      omega
  have hoperand := hfirst (behind links ++ rest) fun t ht => head_behind hop hrest ht
  unfold chain
  rw [List.append_assoc, hoperand]
  exact chainFrom_eq hop hread hstop hlength hrest

/-- One operand alone is a chain. -/
theorem chain_reads_one {ts : List τ} {a : α}
    (hfirst : Reads operand (fun t => follow t ∨ (op t).isSome = true) ts a)
    (hstop : ∀ t, follow t → op t = none) : Reads (chain op operand) follow ts a := by
  have h : Reads (chain op operand) follow (ts ++ behind []) (fold a []) :=
    chain_reads hfirst (by simp) (by simp) hstop
  simpa using h

end Chain

/-! ## Where operators stand -/

/-- What a parser reads is a stretch of tokens, each of which may stand behind the one before
it, that starts where `start` says and ends in a token of `last`. -/
def Placed (ok : τ → τ → Prop) (start : τ → Prop) (last : τ → Prop) (p : Parser τ α) : Prop :=
  ∀ ts a rest, p ts = some (a, rest) →
    ∃ t pre, ts = t :: pre ++ rest ∧ start t ∧ List.IsChain ok (t :: pre) ∧
      ∀ z ∈ (t :: pre).getLast?, last z

section Placed

variable {ok : τ → τ → Prop} {start last : τ → Prop} {op : τ → Option (α → α → α)}
  {operand : Parser τ α}

/-- Two stretches with an operator between them. -/
theorem isChain_join {t t' o : τ} {pre pre' : List τ} (hpre : List.IsChain ok (t :: pre))
    (hpre' : List.IsChain ok (t' :: pre')) (hlast : ∀ z ∈ (t :: pre).getLast?, ok z o)
    (hnext : ok o t') : List.IsChain ok (t :: pre ++ o :: t' :: pre') := by
  refine List.isChain_append.mpr ⟨hpre, List.isChain_cons_cons.mpr ⟨hnext, hpre'⟩, ?_⟩
  intro z hz y hy
  rw [List.head?_cons, Option.mem_some_iff] at hy
  exact hy ▸ hlast z hz

theorem chainFrom_placed (hoperand : Placed ok start last operand)
    (hleft : ∀ z o, last z → (op o).isSome = true → ok z o)
    (hright : ∀ o t, (op o).isSome = true → start t → ok o t) {n : ℕ} {a b : α}
    {ts rest : List τ} (h : chainFrom op operand n a ts = some (b, rest)) {t : τ} {pre : List τ}
    (hpre : List.IsChain ok (t :: pre)) (hlast : ∀ z ∈ (t :: pre).getLast?, last z) :
    ∃ more, ts = more ++ rest ∧ List.IsChain ok (t :: pre ++ more) ∧
      ∀ z ∈ (t :: pre ++ more).getLast?, last z := by
  induction n generalizing a ts pre with
  | zero =>
    cases h
    exact ⟨[], rfl, by simpa using hpre, by simpa using hlast⟩
  | succ n ih =>
    cases ts with
    | nil =>
      cases h
      exact ⟨[], rfl, by simpa using hpre, by simpa using hlast⟩
    | cons o ts =>
      unfold chainFrom at h
      cases ho : op o with
      | none =>
        simp only [ho] at h
        cases h
        exact ⟨[], rfl, by simpa using hpre, by simpa using hlast⟩
      | some f =>
        cases hread : operand ts with
        | none => simp [ho, hread] at h
        | some result =>
          obtain ⟨b', rest'⟩ := result
          simp only [ho, hread] at h
          obtain ⟨t', pre', hts, hstart, hchain, hlast'⟩ := hoperand ts b' rest' hread
          have hsome : (op o).isSome = true := by rw [ho]; rfl
          have hjoin : List.IsChain ok (t :: (pre ++ o :: t' :: pre')) :=
            isChain_join hpre hchain (fun z hz => hleft z o (hlast z hz) hsome)
              (hright o t' hsome hstart)
          have hend : ∀ z ∈ (t :: (pre ++ o :: t' :: pre')).getLast?, last z := by
            intro z hz
            refine hlast' z ?_
            simpa [List.getLast?_append, List.getLast?_cons] using hz
          obtain ⟨more, hrest, hmore, hmoreLast⟩ := ih h hjoin hend
          refine ⟨o :: t' :: pre' ++ more, ?_, ?_, ?_⟩
          · rw [hts, hrest]
            simp
          · simpa using hmore
          · simpa using hmoreLast

/-- A chain keeps its operators between operands. -/
theorem chain_placed (hoperand : Placed ok start last operand)
    (hleft : ∀ z o, last z → (op o).isSome = true → ok z o)
    (hright : ∀ o t, (op o).isSome = true → start t → ok o t) :
    Placed ok start last (chain op operand) := by
  intro ts b rest h
  unfold chain at h
  cases hread : operand ts with
  | none => simp [hread] at h
  | some result =>
    obtain ⟨a, rest'⟩ := result
    simp only [hread] at h
    obtain ⟨t, pre, rfl, hstart, hpre, hlast⟩ := hoperand ts a rest' hread
    obtain ⟨more, rfl, hmore, hmoreLast⟩ :=
      chainFrom_placed hoperand hleft hright h hpre hlast
    exact ⟨t, pre ++ more, by simp, hstart, by simpa using hmore, by simpa using hmoreLast⟩

end Placed

/-! ## Expressions -/

/-- What a token does in an expression. -/
inductive Role
  | operand
  /-- behind an operand -/
  | suffix
  /-- before an operand -/
  | leading
  /-- between two operands -/
  | binary
  | opening
  | closing
  /-- nothing -/
  | stray
  deriving DecidableEq, Repr

/-- The expressions of a language; in some of them operands may stand side by side. -/
inductive Expression (sideBySide : Prop) (role : τ → Role) : List τ → Prop
  | operand {t : τ} (ht : role t = .operand) : Expression sideBySide role [t]
  | suffixed {t s : τ} (ht : role t = .operand) (hs : role s = .suffix) :
      Expression sideBySide role [t, s]
  | leading {o : τ} {ts : List τ} (ho : role o = .leading) (h : Expression sideBySide role ts) :
      Expression sideBySide role (o :: ts)
  | group {o c : τ} {ts : List τ} (ho : role o = .opening) (h : Expression sideBySide role ts)
      (hc : role c = .closing) : Expression sideBySide role (o :: (ts ++ [c]))
  | binary {o : τ} {ts us : List τ} (ht : Expression sideBySide role ts) (ho : role o = .binary)
      (hu : Expression sideBySide role us) : Expression sideBySide role (ts ++ o :: us)
  | beside {ts us : List τ} (hside : sideBySide) (ht : Expression sideBySide role ts)
      (hu : Expression sideBySide role us) : Expression sideBySide role (ts ++ us)

/-- Where a reader stands: before an operand, behind one that a suffix may follow, or behind
one that none may follow. -/
inductive Place
  | before
  | behind
  | sealed
  deriving DecidableEq, Repr

section Expressions

variable {sideBySide : Prop} [Decidable sideBySide] {role : τ → Role} {p q : Place}
  {t : τ} {ts us : List τ}

/-- Whether an operand may begin. -/
def Place.free (sideBySide : Prop) [Decidable sideBySide] (p : Place) : Bool :=
  p = .before || sideBySide

def Place.next (sideBySide : Prop) [Decidable sideBySide] (p : Place) : Role → Option Place
  | .operand => if p.free sideBySide then some .behind else none
  | .suffix => if p = .behind then some .sealed else none
  | .leading | .opening => if p.free sideBySide then some .before else none
  | .binary => if p = .before then none else some .before
  | .closing => if p = .before then none else some .sealed
  | .stray => none

/-- How far a reader gets who does not count parentheses. -/
def reach (sideBySide : Prop) [Decidable sideBySide] (role : τ → Role) (p : Place)
    (ts : List τ) : Option Place :=
  ts.foldlM (fun p t => p.next sideBySide (role t)) p

@[simp] theorem reach_nil : reach sideBySide role p [] = some p := rfl

@[simp] theorem reach_cons :
    reach sideBySide role p (t :: ts) =
      (p.next sideBySide (role t)).bind fun q => reach sideBySide role q ts := rfl

theorem reach_append :
    reach sideBySide role p (ts ++ us) =
      (reach sideBySide role p ts).bind fun q => reach sideBySide role q us := List.foldlM_append

/-- Wherever an operand may begin an expression is read, and behind it none is due. -/
theorem Expression.reach (h : Expression sideBySide role ts) (hp : p.free sideBySide = true) :
    ∃ q, Operators.reach sideBySide role p ts = some q ∧ q ≠ .before := by
  induction h generalizing p with
  | operand ht => exact ⟨.behind, by simp [Place.next, ht, hp], by decide⟩
  | suffixed ht hs => exact ⟨.sealed, by simp [Place.next, ht, hs, hp], by decide⟩
  | leading ho h ih =>
    obtain ⟨q, hq, hne⟩ := @ih .before rfl
    exact ⟨q, by simp [Place.next, ho, hp, hq], hne⟩
  | group ho h hc ih =>
    obtain ⟨q, hq, hne⟩ := @ih .before rfl
    exact ⟨.sealed, by simp [reach_append, Place.next, ho, hc, hp, hq, hne], by decide⟩
  | binary ht ho hu iht ihu =>
    obtain ⟨q, hq, hne⟩ := iht hp
    obtain ⟨r, hr, hrne⟩ := @ihu .before rfl
    exact ⟨r, by simp [reach_append, Place.next, ho, hq, hne, hr], hrne⟩
  | beside hside ht hu iht ihu =>
    obtain ⟨q, hq, -⟩ := iht hp
    obtain ⟨r, hr, hrne⟩ := @ihu q (by simp [Place.free, hside])
    exact ⟨r, by simp [reach_append, hq, hr], hrne⟩

/-- Without parentheses what is read is an expression: by itself, or with an operand, or a
suffixed one, in front of it. -/
theorem expression_of_reach (hflat : ∀ t ∈ ts, role t ≠ .opening ∧ role t ≠ .closing)
    (hreach : reach sideBySide role p ts = some q) (hq : q ≠ .before) :
    (p = .before → Expression sideBySide role ts) ∧
      (p = .behind → ∀ t, role t = .operand → Expression sideBySide role (t :: ts)) ∧
      (p = .sealed → ∀ t s, role t = .operand → role s = .suffix →
        Expression sideBySide role (t :: s :: ts)) := by
  induction ts generalizing p with
  | nil =>
    cases hreach
    exact ⟨fun hp => absurd hp hq, fun _ t ht => .operand ht, fun _ t s ht hs => .suffixed ht hs⟩
  | cons t ts ih =>
    rw [reach_cons, Option.bind_eq_some_iff] at hreach
    obtain ⟨r, hnext, hrest⟩ := hreach
    have hih := ih (fun x hx => hflat x (.tail _ hx)) hrest
    have hside : p ≠ .before → p.free sideBySide = true → sideBySide := by
      intro hp hfree
      simpa [Place.free, hp] using hfree
    cases ht : role t with
    | opening => exact absurd ht (hflat t (.head _)).1
    | closing => exact absurd ht (hflat t (.head _)).2
    | stray => simp [Place.next, ht] at hnext
    | operand =>
      simp only [Place.next, ht, Option.ite_none_right_eq_some, Option.some.injEq] at hnext
      have hexpr := hih.2.1 hnext.2.symm t ht
      refine ⟨fun _ => hexpr, fun hp x hx => ?_, fun hp x s hx hs => ?_⟩
      · exact .beside (hside (by simp [hp]) hnext.1) (.operand hx) hexpr
      · exact .beside (hside (by simp [hp]) hnext.1) (.suffixed hx hs) hexpr
    | leading =>
      simp only [Place.next, ht, Option.ite_none_right_eq_some, Option.some.injEq] at hnext
      have hexpr : Expression sideBySide role (t :: ts) := .leading ht (hih.1 hnext.2.symm)
      refine ⟨fun _ => hexpr, fun hp x hx => ?_, fun hp x s hx hs => ?_⟩
      · exact .beside (hside (by simp [hp]) hnext.1) (.operand hx) hexpr
      · exact .beside (hside (by simp [hp]) hnext.1) (.suffixed hx hs) hexpr
    | binary =>
      simp only [Place.next, ht, Option.ite_none_left_eq_some, Option.some.injEq] at hnext
      have hexpr := hih.1 hnext.2.symm
      refine ⟨fun hp => absurd hp hnext.1, fun _ x hx => ?_, fun _ x s hx hs => ?_⟩
      · exact .binary (.operand hx) ht hexpr
      · exact .binary (.suffixed hx hs) ht hexpr
    | suffix =>
      simp only [Place.next, ht, Option.ite_none_right_eq_some, Option.some.injEq] at hnext
      obtain ⟨hp, hr⟩ := hnext
      subst hp
      exact ⟨fun hp => absurd hp (by decide), fun _ x hx => hih.2.2 hr.symm x t hx ht,
        fun hp => absurd hp (by decide)⟩

theorem expression_iff (hflat : ∀ t ∈ ts, role t ≠ .opening ∧ role t ≠ .closing) :
    Expression sideBySide role ts ↔
      ∃ q, reach sideBySide role .before ts = some q ∧ q ≠ .before := by
  constructor
  · intro h
    exact h.reach rfl
  · intro h
    obtain ⟨q, hreach, hq⟩ := h
    exact (expression_of_reach hflat hreach hq).1 rfl

omit [Decidable sideBySide] in
/-- Expressions with an operator in front of each but the first. -/
theorem Expression.joined {first : List τ} {links : List (τ × List τ)}
    (hfirst : Expression sideBySide role first)
    (hlinks : ∀ l ∈ links, role l.1 = .binary ∧ Expression sideBySide role l.2) :
    Expression sideBySide role (first ++ links.flatMap fun l => l.1 :: l.2) := by
  induction links generalizing first with
  | nil => simpa using hfirst
  | cons l links ih =>
    have hlink := hlinks l (.head _)
    have hmore := ih (hfirst.binary hlink.1 hlink.2) fun m hm => hlinks m (.tail _ hm)
    simpa using hmore

/-- A reader who gets through segments with an operator in front of each got through each of
them from where an operand was due. -/
theorem reach_joined {first : List τ} {links : List (τ × List τ)}
    (hlinks : ∀ l ∈ links, role l.1 = .binary)
    (h : reach sideBySide role p (first ++ links.flatMap fun l => l.1 :: l.2) = some q) :
    (∃ r, reach sideBySide role p first = some r) ∧
      ∀ l ∈ links, ∃ r, reach sideBySide role .before l.2 = some r := by
  rw [reach_append, Option.bind_eq_some_iff] at h
  obtain ⟨r, hr, hrest⟩ := h
  refine ⟨⟨r, hr⟩, ?_⟩
  clear hr
  induction links generalizing r with
  | nil => simp
  | cons l links ih =>
    rw [List.flatMap_cons, List.cons_append, reach_cons, hlinks l (.head _),
      Option.bind_eq_some_iff] at hrest
    obtain ⟨x, hx, hrest⟩ := hrest
    rw [Place.next, Option.ite_none_left_eq_some, Option.some.injEq] at hx
    rw [reach_append, Option.bind_eq_some_iff, ← hx.2] at hrest
    obtain ⟨y, hy, hmore⟩ := hrest
    have htail := ih (fun m hm => hlinks m (.tail _ hm)) y hmore
    exact List.forall_mem_cons.mpr ⟨⟨y, hy⟩, htail⟩

end Expressions

end CwStation.Operators
