import CwStation.Model.QueryParser
import CwStation.Verification.Python.Strings
import Mathlib.Data.List.Infix

/-! # Queries and what they mean

A query is a sequence of words, prefix words, quoted phrases and exclusions, in groups that
`OR` separates. A document is found if some group has all it asks for and nothing that it
excludes. -/

namespace CwStation.QueryParser

open TextSearch

variable {u : Unicode}

/-! ## Characters of words -/

theorem isAlnum_ascii {c : Char} (hascii : c.toNat < 128) (hc : c.isAlphanum = false) :
    isAlnum u c = false := by
  unfold isAlnum
  rw [u.isWord_ascii c hascii, hc, Bool.false_or]
  cases hscore : c == '_' <;> simp_all

theorem ne_of_isAlnum {c d : Char} (hc : isAlnum u c = true) (hascii : d.toNat < 128)
    (hd : d.isAlphanum = false) : c ≠ d := by
  rintro rfl
  rw [isAlnum_ascii hascii hd] at hc
  cases hc

theorem isSpace_of_isAlnum {c : Char} (hc : isAlnum u c = true) : isSpace c = false := by
  cases hspace : isSpace c with
  | false => rfl
  | true => simp [isAlnum, u.isWord_space c hspace] at hc

theorem isBareChar_of_isAlnum {c : Char} (hc : isAlnum u c = true) : isBareChar c = true := by
  by_cases hascii : c.toNat < 128
  · cases halpha : c.isAlphanum with
    | true => simp [isBareChar, halpha]
    | false =>
      rw [isAlnum_ascii hascii halpha] at hc
      cases hc
  · simp [isBareChar, Nat.le_of_not_lt hascii]

/-! ## Items -/

structure Word (u : Unicode) where
  text : Str
  ne : text ≠ []
  alnum : ∀ c ∈ text, isAlnum u c = true

/-- What stands between quotes: words and white space. -/
structure Quoted (u : Unicode) where
  text : Str
  chars : ∀ c ∈ text, isAlnum u c = true ∨ isSpace c = true
  ne : splitSpaces text ≠ []

inductive Item (u : Unicode)
  | word (w : Word u) (plain : isOr u w.text = false)
  | starts (w : Word u)
  | phrase (q : Quoted u)
  /-- `-word`. -/
  | without (w : Word u)
  /-- `-word*`. -/
  | withoutStarts (w : Word u)

namespace Item

/-- What the user types. -/
def token : Item u → Str
  | word w _ => w.text
  | starts w => w.text ++ ['*']
  | phrase q => '"' :: q.text ++ ['"']
  | without w => '-' :: w.text
  | withoutStarts w => '-' :: w.text ++ ['*']

def positive : Item u → Bool
  | word _ _ | starts _ | phrase _ => true
  | without _ | withoutStarts _ => false

/-- The words of an item. -/
def words : Item u → List Str
  | word w _ | starts w | without w | withoutStarts w => [w.text]
  | phrase q => splitSpaces q.text

/-- The document holds what the item names. -/
def Found (doc : List Str) : Item u → Prop
  | word w _ | without w => w.text ∈ doc
  | starts w | withoutStarts w => ∃ d ∈ doc, w.text <+: d
  | phrase q => splitSpaces q.text <:+: doc

end Item

/-- `OR`, in whatever case. -/
structure OrWord (u : Unicode) where
  text : Str
  isOr : isOr u text = true

/-- A query of which each group asks for something. -/
structure Query (u : Unicode) where
  text : Str
  first : List (Item u)
  later : List (OrWord u × List (Item u))
  spelled : tokens text =
    first.map Item.token ++ later.flatMap fun g => g.1.text :: g.2.map Item.token
  asks : ∀ g ∈ first :: later.map (·.2), ∃ i ∈ g, i.positive = true

namespace Query

def groups (q : Query u) : List (List (Item u)) := q.first :: q.later.map (·.2)

/-- What the documentation of the search says a query means. -/
def Means (q : Query u) (doc : List Str) : Prop :=
  ∃ g ∈ q.groups, (∀ i ∈ g, i.positive = true → i.Found doc) ∧
    ∀ i ∈ g, i.positive = false → ¬i.Found doc

end Query

/-! ## Tokens of a text -/

theorem drop_length_takeWhile {α : Type*} (p : α → Bool) (l : List α) :
    l.drop (l.takeWhile p).length = l.dropWhile p := by
  have h : (l.takeWhile p ++ l.dropWhile p).drop (l.takeWhile p).length = l.dropWhile p :=
    List.drop_left
  rwa [List.takeWhile_append_dropWhile] at h

theorem tokenAt_prefix {c : Char} {cs token : Str} (h : tokenAt (c :: cs) = some token) :
    token ≠ [] ∧ token = (c :: cs).take token.length := by
  unfold tokenAt at h
  dsimp only at h
  split at h
  · rename_i hquoted
    obtain ⟨rfl, -, hclosed⟩ := hquoted
    cases h
    refine ⟨by simp, ?_⟩
    have hcs := List.takeWhile_append_dropWhile (p := (· ≠ '"')) (l := cs)
    have hhead := List.head?_dropWhile_not (· ≠ '"') cs
    generalize cs.takeWhile (· ≠ '"') = body at hcs ⊢
    cases hdrop : cs.dropWhile (· ≠ '"') with
    | nil => exact absurd hdrop hclosed
    | cons d ds =>
      have hd : d = '"' := by
        rw [hdrop] at hhead
        simpa using hhead
      rw [← hcs, hdrop, hd]
      simp [List.take_append]
  · split at h
    · cases h
    · cases h
      refine ⟨by simp, ?_⟩
      rw [List.length_cons, List.take_succ_cons]
      exact congrArg (c :: ·) (List.prefix_iff_eq_take.mp (List.takeWhile_prefix _))

theorem tokensFrom_eq_drop (n : ℕ) (s : Str) : tokensFrom n s = tokensFrom 0 (s.drop n) := by
  induction s generalizing n with
  | nil => cases n <;> rfl
  | cons c cs ih =>
    cases n with
    | zero => rfl
    | succ n =>
      rw [List.drop_succ_cons, ← ih n]
      rfl

theorem tokensFrom_cons_none {c : Char} {cs : Str} (h : tokenAt (c :: cs) = none) :
    tokensFrom 0 (c :: cs) = tokensFrom 0 cs := by
  simp [tokensFrom, h]

theorem tokensFrom_cons_some {c : Char} {cs token : Str} (h : tokenAt (c :: cs) = some token) :
    tokensFrom 0 (c :: cs) = token :: tokensFrom 0 ((c :: cs).drop token.length) := by
  obtain ⟨hne, -⟩ := tokenAt_prefix h
  cases token with
  | nil => exact absurd rfl hne
  | cons d ds =>
    simp only [tokensFrom, h, List.length_cons, Nat.add_sub_cancel]
    rw [tokensFrom_eq_drop]
    rfl

theorem tokenAt_none {c : Char} {cs : Str} (h : tokenAt (c :: cs) = none) : isSpace c = true := by
  unfold tokenAt at h
  dsimp only at h
  split at h
  · cases h
  · split at h
    · assumption
    · cases h

/-- A character that is no white space stands in some token. -/
theorem mem_tokens {s : Str} {c : Char} (hc : c ∈ s) (hspace : isSpace c = false) :
    ∃ token ∈ tokensFrom 0 s, c ∈ token := by
  induction hlength : s.length using Nat.strong_induction_on generalizing s with
  | _ n ih =>
    subst hlength
    cases s with
    | nil => simp at hc
    | cons d s =>
      cases htoken : tokenAt (d :: s) with
      | none =>
        rw [tokensFrom_cons_none htoken]
        have hne : c ≠ d := by
          rintro rfl
          rw [tokenAt_none htoken] at hspace
          cases hspace
        have hmem : c ∈ s := (List.mem_cons.mp hc).resolve_left hne
        exact ih s.length (by simp) hmem rfl
      | some token =>
        rw [tokensFrom_cons_some htoken]
        obtain ⟨hne, htake⟩ := tokenAt_prefix htoken
        rw [← List.take_append_drop token.length (d :: s), ← htake] at hc
        rcases List.mem_append.mp hc with hc | hc
        · exact ⟨token, .head _, hc⟩
        · have hshorter : ((d :: s).drop token.length).length < (d :: s).length := by
            have hpos : 0 < token.length := List.length_pos_of_ne_nil hne
            simp only [List.length_drop, List.length_cons]
            omega
          obtain ⟨token', htoken', hmem⟩ := ih _ hshorter hc rfl
          exact ⟨token', .tail _ htoken', hmem⟩

theorem splitFrom_eq (s : Str) :
    splitFrom s =
      (s.takeWhile fun c => !isSpace c, splitSpaces (s.dropWhile fun c => !isSpace c)) := by
  induction s with
  | nil => rfl
  | cons c s ih =>
    cases hc : isSpace c with
    | true => simp [splitFrom, splitSpaces, hc]
    | false => simp [splitFrom, ih, hc]

theorem splitSpaces_cons {c : Char} (hc : isSpace c = false) (s : Str) :
    splitSpaces (c :: s) =
      (c :: s.takeWhile fun c => !isSpace c) ::
        splitSpaces (s.dropWhile fun c => !isSpace c) := by
  simp [splitSpaces, splitFrom, splitFrom_eq s, hc]

/-- Without quotes the tokens are the words. -/
theorem tokensFrom_eq_splitSpaces {s : Str} (hs : '"' ∉ s) : tokensFrom 0 s = splitSpaces s := by
  induction hlength : s.length using Nat.strong_induction_on generalizing s with
  | _ n ih =>
    subst hlength
    cases s with
    | nil => rfl
    | cons c s =>
      rw [List.mem_cons, not_or] at hs
      cases hc : isSpace c with
      | true =>
        have htoken : tokenAt (c :: s) = none := by simp [tokenAt, hc, Ne.symm hs.1]
        rw [tokensFrom_cons_none htoken, splitSpaces_cons_space hc]
        exact ih s.length (by simp) hs.2 rfl
      | false =>
        have htoken : tokenAt (c :: s) = some (c :: s.takeWhile fun c => !isSpace c) := by
          simp [tokenAt, hc, Ne.symm hs.1]
        rw [tokensFrom_cons_some htoken, splitSpaces_cons hc, List.length_cons,
          List.drop_succ_cons, drop_length_takeWhile]
        congr 1
        refine ih _ ?_ (fun hmem => hs.2 ((List.dropWhile_sublist _).subset hmem)) rfl
        exact Nat.lt_succ_of_le (List.dropWhile_sublist _).length_le

/-! ## Words of a text -/

theorem words_aux {s : Str} (hs : ∀ c ∈ s, isAlnum u c = true ∨ isSpace c = true) :
    ∃ w ws, (s.splitOnP fun c => !isAlnum u c) = w :: ws ∧
      splitFrom s = (w, ws.filter (· ≠ [])) := by
  induction s with
  | nil => exact ⟨[], [], rfl, rfl⟩
  | cons c s ih =>
    obtain ⟨w, ws, hsplit, hfrom⟩ := ih fun d hd => hs d (.tail _ hd)
    rcases hs c (.head _) with hc | hc
    · refine ⟨c :: w, ws, ?_, ?_⟩
      · simp [List.splitOnP_cons_eq_if_modifyHead, hc, hsplit]
      · simp [splitFrom, isSpace_of_isAlnum hc, hfrom]
    · have halnum : isAlnum u c = false := by
        cases h : isAlnum u c with
        | false => rfl
        | true =>
          rw [isSpace_of_isAlnum h] at hc
          cases hc
      refine ⟨[], w :: ws, ?_, ?_⟩
      · simp [List.splitOnP_cons_eq_if_modifyHead, halnum, hsplit]
      · by_cases hw : w = []
        · simp [splitFrom, hc, hfrom, hw]
        · simp [splitFrom, hc, hfrom, hw]

/-- Both engines see the words of a text as Python's `split` does, as long as nothing but
letters, digits and white space is in it. -/
theorem words_eq_splitSpaces {s : Str}
    (hs : ∀ c ∈ s, isAlnum u c = true ∨ isSpace c = true) : words u s = splitSpaces s := by
  obtain ⟨w, ws, hsplit, hfrom⟩ := words_aux hs
  unfold TextSearch.words splitSpaces
  rw [hsplit, hfrom]
  by_cases hw : w = []
  · simp [hw]
  · simp [hw]

theorem splitSpaces_word (w : Word u) : splitSpaces w.text = [w.text] := by
  have hfrom : splitFrom w.text = (w.text, []) :=
    splitFrom_of_word fun c hc => isSpace_of_isAlnum (w.alnum c hc)
  simp [splitSpaces, hfrom, w.ne]

theorem words_word (w : Word u) : words u w.text = [w.text] := by
  rw [words_eq_splitSpaces fun c hc => .inl (w.alnum c hc), splitSpaces_word]

theorem words_quoted (q : Quoted u) : words u q.text = splitSpaces q.text :=
  words_eq_splitSpaces q.chars

/-- The words between quotes are words. -/
theorem isAlnum_of_splitSpaces {s w : Str}
    (hs : ∀ c ∈ s, isAlnum u c = true ∨ isSpace c = true) (hw : w ∈ splitSpaces s) :
    w ≠ [] ∧ ∀ c ∈ w, isAlnum u c = true := by
  rw [← words_eq_splitSpaces hs] at hw
  obtain ⟨hmem, hne⟩ := List.mem_filter.mp hw
  refine ⟨of_decide_eq_true hne, ?_⟩
  clear hw hne hs
  induction s generalizing w with
  | nil =>
    rw [List.splitOnP_nil, List.mem_singleton] at hmem
    subst hmem
    simp
  | cons c s ih =>
    rw [List.splitOnP_cons_eq_if_modifyHead] at hmem
    split at hmem
    · rcases List.mem_cons.mp hmem with rfl | hmem
      · simp
      · exact ih hmem
    · rename_i hc
      cases hsplit : s.splitOnP fun c => !isAlnum u c with
      | nil => exact absurd hsplit (List.splitOnP_ne_nil _ _)
      | cons v vs =>
        rw [hsplit] at hmem ih
        rcases List.mem_cons.mp hmem with rfl | hmem
        · intro d hd
          rcases List.mem_cons.mp hd with rfl | hd
          · simpa using hc
          · exact ih (.head _) d hd
        · exact ih (.tail _ hmem)

/-! ## Phrases in a document -/

theorem startsAt_words {ws doc : List Str} :
    startsAt (ws.map (·, false)) doc = true ↔ ws <+: doc := by
  induction ws generalizing doc with
  | nil => simp [startsAt]
  | cons w ws ih =>
    cases doc with
    | nil => simp [startsAt]
    | cons d doc => simp [startsAt, ih, List.cons_prefix_cons]

theorem occurs_words {ws doc : List Str} (hne : ws ≠ []) :
    occurs (ws.map (·, false)) doc = true ↔ ws <:+: doc := by
  simp only [occurs, List.isEmpty_map, Bool.and_eq_true, List.any_eq_true, List.mem_tails,
    startsAt_words, List.infix_iff_prefix_suffix]
  constructor
  · rintro ⟨-, t, hsuffix, hprefix⟩
    exact ⟨t, hprefix, hsuffix⟩
  · rintro ⟨t, hprefix, hsuffix⟩
    refine ⟨?_, t, hsuffix, hprefix⟩
    cases ws with
    | nil => exact absurd rfl hne
    | cons w ws => rfl

theorem occurs_word {w : Str} {doc : List Str} : occurs [(w, false)] doc = true ↔ w ∈ doc := by
  have h : occurs ([w].map (·, false)) doc = true ↔ [w] <:+: doc :=
    occurs_words (List.cons_ne_nil w [])
  rw [List.map_singleton] at h
  rw [h]
  exact List.singleton_infix_iff w doc

theorem occurs_starts {w : Str} {doc : List Str} :
    occurs [(w, true)] doc = true ↔ ∃ d ∈ doc, w <+: d := by
  simp only [occurs, List.any_eq_true, List.mem_tails, Bool.and_eq_true]
  constructor
  · rintro ⟨-, t, hsuffix, hstarts⟩
    cases t with
    | nil => simp [startsAt] at hstarts
    | cons d t =>
      refine ⟨d, hsuffix.subset (.head _), ?_⟩
      simpa [startsAt] using hstarts
  · rintro ⟨d, hd, hprefix⟩
    obtain ⟨l, r, rfl⟩ := List.append_of_mem hd
    refine ⟨rfl, d :: r, List.suffix_append l _, ?_⟩
    simpa [startsAt] using hprefix

/-- The phrase that an item names. -/
def Item.named : Item u → Phrase
  | .word w _ | .without w => [(w.text, false)]
  | .starts w | .withoutStarts w => [(w.text, true)]
  | .phrase q => (splitSpaces q.text).map (·, false)

theorem occurs_named (i : Item u) (doc : List Str) :
    occurs i.named doc = true ↔ i.Found doc := by
  cases i with
  | word w plain => exact occurs_word
  | starts w => exact occurs_starts
  | phrase q => exact occurs_words q.ne
  | without w => exact occurs_word
  | withoutStarts w => exact occurs_starts

/-! ## The tokens of a query -/

theorem upper_append (a b : Str) : u.upper (a ++ b) = u.upper a ++ u.upper b := by
  simp [Unicode.upper]

theorem upper_ascii {c : Char} (hc : c.toNat < 128) (h : c.toUpper = c) : u.upper [c] = [c] := by
  simp [Unicode.upper, u.upperChar_ascii c hc, h]

/-- A token that begins with a character that is not an `O` in upper case is no `OR`. -/
theorem isOr_of_head {c : Char} {s : Str} (hc : c.toNat < 128) (hupper : c.toUpper = c)
    (hne : c ≠ 'O') : isOr u (c :: s) = false := by
  have hsplit : u.upper (c :: s) = c :: u.upper s := by
    rw [← List.singleton_append, upper_append, upper_ascii hc hupper]
    rfl
  simp [isOr, hsplit, hne]

theorem isOr_star (s : Str) : isOr u (s ++ ['*']) = false := by
  have hstar : u.upper ['*'] = ['*'] := upper_ascii (by decide) (by decide)
  rw [isOr, upper_append, hstar, beq_eq_false_iff_ne]
  intro h
  have hlast := congrArg List.getLast? h
  rw [List.getLast?_append_of_ne_nil _ (by simp)] at hlast
  exact absurd hlast (by decide)

/-- No item is an `OR`. -/
theorem isOr_token (i : Item u) : isOr u i.token = false := by
  cases i with
  | word w plain => exact plain
  | starts w => exact isOr_star w.text
  | phrase q => exact isOr_of_head (by decide) (by decide) (by decide)
  | without w => exact isOr_of_head (by decide) (by decide) (by decide)
  | withoutStarts w => exact isOr_of_head (by decide) (by decide) (by decide)

namespace Word

variable (w : Word u)

theorem ne_of_mem {c : Char} (hascii : c.toNat < 128) (hc : c.isAlphanum = false) :
    c ∉ w.text := fun hmem => ne_of_isAlnum (w.alnum c hmem) hascii hc rfl

theorem head_ne {c : Char} (hascii : c.toNat < 128) (hc : c.isAlphanum = false) :
    w.text.head? ≠ some c := fun h => w.ne_of_mem hascii hc (List.mem_of_mem_head? h)

theorem getLast_ne {c : Char} (hascii : c.toNat < 128) (hc : c.isAlphanum = false) :
    w.text.getLast? ≠ some c := fun h => w.ne_of_mem hascii hc (List.mem_of_mem_getLast? h)

theorem filter_eq {p : Char → Bool} (hp : ∀ c, isAlnum u c = true → p c = true) :
    w.text.filter p = w.text := List.filter_eq_self.mpr fun c hc => hp c (w.alnum c hc)

end Word

theorem Quoted.not_mem_quote (q : Quoted u) : '"' ∉ q.text := by
  intro hmem
  rcases q.chars '"' hmem with h | h
  · exact absurd rfl (ne_of_isAlnum h (by decide) (by decide))
  · exact absurd h (by decide)

/-- A query has tokens. -/
theorem Query.strip_ne (q : Query u) : strip q.text ≠ [] := by
  intro h
  obtain ⟨i, hi, -⟩ := q.asks q.first (.head _)
  have hspelled := q.spelled
  rw [tokens, h] at hspelled
  have hnil : q.first.map Item.token = [] := (List.append_eq_nil_iff.mp hspelled.symm).1
  rw [List.map_eq_nil_iff.mp hnil] at hi
  cases hi

/-! ## Spelling a query -/

/-- A token that is found again where a blank or the end is behind it. -/
structure Solid (token : Str) : Prop where
  read : ∀ rest : Str, (∀ c ∈ rest.head?, c = ' ') → tokenAt (token ++ rest) = some token
  head : ∀ c ∈ token.head?, isSpace c = false
  last : ∀ c ∈ token.getLast?, isSpace c = false

theorem Solid.ne {token : Str} (h : Solid token) : token ≠ [] := by
  rintro rfl
  have hread := h.read [] (by simp)
  cases hread

theorem takeWhile_stop {p : Char → Bool} {s rest : Str} (hs : ∀ c ∈ s, p c = true)
    (hrest : ∀ c ∈ rest.head?, p c = false) : (s ++ rest).takeWhile p = s := by
  induction s with
  | nil =>
    cases rest with
    | nil => rfl
    | cons c rest => simp [hrest c rfl]
  | cons c s ih =>
    rw [List.cons_append, List.takeWhile_cons_of_pos (hs c (.head _)),
      ih fun d hd => hs d (.tail _ hd)]

theorem solid_of_plain {token : Str} (hne : token ≠ []) (hspace : ∀ c ∈ token, isSpace c = false)
    (hquote : token.head? ≠ some '"') : Solid token := by
  refine ⟨fun rest hrest => ?_, fun c hc => hspace c (List.mem_of_mem_head? hc),
    fun c hc => hspace c (List.mem_of_mem_getLast? hc)⟩
  cases token with
  | nil => exact absurd rfl hne
  | cons c token =>
    have hc : c ≠ '"' := fun h => hquote (congrArg some h)
    have htake : (token ++ rest).takeWhile (fun c => !isSpace c) = token := by
      refine takeWhile_stop (fun d hd => by simp [hspace d (.tail _ hd)]) fun d hd => ?_
      rw [hrest d hd]
      rfl
    simp [tokenAt, hc, hspace c (.head _), htake]

theorem solid_token (i : Item u) : Solid i.token := by
  have hword : ∀ w : Word u, ∀ c ∈ w.text, isSpace c = false := fun w c hc =>
    isSpace_of_isAlnum (w.alnum c hc)
  cases i with
  | word w plain =>
    exact solid_of_plain w.ne (hword w) (w.head_ne (by decide) (by decide))
  | starts w =>
    refine solid_of_plain (by simp [Item.token]) (fun c hc => ?_) ?_
    · rcases List.mem_append.mp hc with hc | hc
      · exact hword w c hc
      · rw [List.mem_singleton.mp hc]
        rfl
    · rw [Item.token, List.head?_append_of_ne_nil _ w.ne]
      exact w.head_ne (by decide) (by decide)
  | without w =>
    refine solid_of_plain (by simp [Item.token]) (fun c hc => ?_) (by simp [Item.token])
    rcases List.mem_cons.mp hc with rfl | hc
    · rfl
    · exact hword w c hc
  | withoutStarts w =>
    refine solid_of_plain (by simp [Item.token]) (fun c hc => ?_) (by simp [Item.token])
    rcases List.mem_cons.mp hc with rfl | hc
    · rfl
    · rcases List.mem_append.mp hc with hc | hc
      · exact hword w c hc
      · rw [List.mem_singleton.mp hc]
        rfl
  | phrase q =>
    refine ⟨fun rest hrest => ?_, fun c hc => ?_, fun c hc => ?_⟩
    · have hclean : ∀ c ∈ q.text, decide (c ≠ '"') = true := by
        intro c hc
        refine decide_eq_true ?_
        rintro rfl
        exact q.not_mem_quote hc
      have htake : (q.text ++ '"' :: rest).takeWhile (· ≠ '"') = q.text :=
        takeWhile_stop hclean (by simp)
      have hdrop : (q.text ++ '"' :: rest).dropWhile (· ≠ '"') = '"' :: rest := by
        have happend := List.takeWhile_append_dropWhile (p := (· ≠ '"'))
          (l := q.text ++ '"' :: rest)
        rw [htake] at happend
        exact List.append_cancel_left happend
      have hne : q.text ≠ [] := by
        intro hnil
        have hwords := q.ne
        rw [hnil] at hwords
        exact hwords rfl
      have htext : (Item.phrase q).token ++ rest = '"' :: (q.text ++ '"' :: rest) := by
        simp [Item.token]
      rw [htext]
      unfold tokenAt
      dsimp only
      rw [if_pos ⟨rfl, by rw [htake]; exact hne, by rw [hdrop]; simp⟩, htake]
      rfl
    · have hc' : '"' = c := by simpa [Item.token] using hc
      exact hc' ▸ rfl
    · have hc' : '"' = c := by simpa [Item.token, List.getLast?_cons] using hc
      exact hc' ▸ rfl

theorem tokensFrom_blank (s : Str) : tokensFrom 0 (' ' :: s) = tokensFrom 0 s := by
  refine tokensFrom_cons_none ?_
  simp [tokenAt, show isSpace ' ' = true by decide]

theorem tokensFrom_solid {token : Str} (h : Solid token) {rest : Str}
    (hrest : ∀ c ∈ rest.head?, c = ' ') :
    tokensFrom 0 (token ++ rest) = token :: tokensFrom 0 rest := by
  have hread := h.read rest hrest
  cases htoken : token with
  | nil => exact absurd htoken h.ne
  | cons c cs =>
    rw [htoken, List.cons_append] at hread
    rw [List.cons_append, tokensFrom_cons_some hread, ← List.cons_append, List.drop_left]

/-- Tokens with a blank between any two of them are read again. -/
theorem tokens_joinBlank {ts : List Str} (h : ∀ t ∈ ts, Solid t) : tokens (joinBlank ts) = ts := by
  have hread : tokensFrom 0 (joinBlank ts) = ts := by
    induction ts with
    | nil => rfl
    | cons t ts ih =>
      have htail := ih fun t' ht' => h t' (.tail _ ht')
      rw [joinBlank, intercalate_cons, tokensFrom_solid (h t (.head _))]
      · by_cases hnil : ts = []
        · simp [hnil, tokensFrom]
        · rw [if_neg hnil, tokensFrom_blank]
          exact congrArg (t :: ·) htail
      · intro c hc
        by_cases hnil : ts = []
        · simp [hnil] at hc
        · rw [if_neg hnil, List.head?_cons, Option.mem_some_iff] at hc
          exact hc.symm
  have hhead : ∀ c ∈ (joinBlank ts).head?, isSpace c = false := by
    cases ts with
    | nil => simp [joinBlank, List.intercalate]
    | cons t ts =>
      intro c hc
      rw [joinBlank, intercalate_cons, List.head?_append_of_ne_nil _ (h t (.head _)).ne] at hc
      exact (h t (.head _)).head c hc
  have hlast : ∀ c ∈ (joinBlank ts).getLast?, isSpace c = false := by
    clear hread hhead
    induction ts with
    | nil => simp [joinBlank, List.intercalate]
    | cons t ts ih =>
      intro c hc
      rw [joinBlank, intercalate_cons] at hc
      by_cases hnil : ts = []
      · rw [if_pos hnil, List.append_nil] at hc
        exact (h t (.head _)).last c hc
      · have hjoin : joinBlank ts ≠ [] := by
          cases ts with
          | nil => exact absurd rfl hnil
          | cons t' ts =>
            rw [joinBlank, intercalate_cons]
            simp [(h t' (.tail _ (.head _))).ne]
        rw [if_neg hnil, List.getLast?_append_of_ne_nil _ (by simp)] at hc
        have hlast : c ∈ (joinBlank ts).getLast? := by
          change c ∈ ([' '] ++ joinBlank ts).getLast? at hc
          rwa [List.getLast?_append_of_ne_nil _ hjoin] at hc
        exact ih (fun t' ht' => h t' (.tail _ ht')) c hlast
  rw [tokens, strip_eq_self hhead hlast, hread]

/-- The query with these groups, with blanks between its tokens. -/
def Query.spell (first : List (Item u)) (later : List (OrWord u × List (Item u)))
    (solid : ∀ l ∈ later, Solid l.1.text)
    (asks : ∀ g ∈ first :: later.map (·.2), ∃ i ∈ g, i.positive = true) : Query u where
  text := joinBlank
    (first.map Item.token ++ later.flatMap fun g => g.1.text :: g.2.map Item.token)
  first := first
  later := later
  asks := asks
  spelled := by
    refine tokens_joinBlank fun t ht => ?_
    rcases List.mem_append.mp ht with ht | ht
    · obtain ⟨i, -, rfl⟩ := List.mem_map.mp ht
      exact solid_token i
    · obtain ⟨g, hg, ht⟩ := List.mem_flatMap.mp ht
      rcases List.mem_cons.mp ht with rfl | ht
      · exact solid g hg
      · obtain ⟨i, -, rfl⟩ := List.mem_map.mp ht
        exact solid_token i

end CwStation.QueryParser
