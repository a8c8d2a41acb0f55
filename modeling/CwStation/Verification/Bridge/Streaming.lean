import CwStation.Verification.Bridge.Callsigns
import CwStation.Verification.Python.Strings
import Mathlib.Data.Bool.AllAny

/-! # The live draft against the whole text

`CWLogBridge` sees one word after the other, `extract_callsigns` the whole text. Both are
described here by the list of words, and then compared. -/

namespace CwStation.Bridge

open Pattern

variable {u : Unicode}

/-- A word over `[A-Z0-9]`. -/
def IsWordText (w : Str) : Prop := ∀ c ∈ w, c.isUpper = true ∨ c.isDigit = true

/-- The words, each with a blank behind it. -/
def spaced (words : List Str) : Str := words.flatMap (· ++ [' '])

theorem spaced_cons (w : Str) (ws : List Str) : spaced (w :: ws) = w ++ ' ' :: spaced ws := by
  simp [spaced]

theorem IsWordText.isWord {w : Str} (hw : IsWordText w) : ∀ c ∈ w, u.isWord c = true := by
  intro c hc
  rcases hw c hc with hupper | hdigit
  · exact isWord_of_isUpper hupper
  · apply u.isWord_decimal
    rw [decimal_of_isDigit u hdigit]
    rfl

theorem IsWordText.isSpace {w : Str} (hw : IsWordText w) : ∀ c ∈ w, isSpace c = false := by
  intro c hc
  exact isSpace_of_isWord (u := .ascii) (hw.isWord c hc)

/-! ## Whole words -/

theorem mem_ways_callsignRe {prev : Option Char} {s : Str} {m : Match Char} :
    m ∈ ways (callsignRe u) prev s ↔ prev.any u.isWord = false ∧ m.text ++ m.rest = s ∧
      IsCall u m.text ∧ m.rest.head?.any u.isWord = false ∧ m.groups = [m.text] := by
  have hfirst : ∀ {call rest : Str}, IsCall u call → (call ++ rest).head?.any u.isWord = true := by
    intro call rest hcall
    cases call with
    | nil => exact absurd rfl hcall.ne_nil
    | cons c call => exact hcall.isWord c (by simp)
  constructor
  · intro h
    obtain ⟨b, hb, x, hx, rfl⟩ := mem_ways_seq.mp h
    obtain ⟨g, hg, e, he, rfl⟩ := mem_ways_seq.mp hx
    obtain ⟨hbound, rfl⟩ := mem_ways_boundary.mp hb
    obtain ⟨c, hc, rfl⟩ := mem_ways_group.mp hg
    obtain ⟨hsplit, hcall, hgroups⟩ := mem_ways_callShape.mp hc
    obtain ⟨hend, rfl⟩ := mem_ways_boundary.mp he
    dsimp only at hsplit hend
    rw [after_any_of_forall hcall.ne_nil hcall.isWord] at hend
    rw [← hsplit, hfirst hcall] at hbound
    refine ⟨by simpa using hbound, by simpa using hsplit, by simpa using hcall,
      by simpa using hend, by simp [hgroups]⟩
  · rintro ⟨hprev, rfl, hcall, hrest, hgroups⟩
    obtain ⟨text, rest, groups⟩ := m
    dsimp only at hcall hrest hgroups ⊢
    subst hgroups
    refine mem_ways_seq.mpr ⟨⟨[], text ++ rest, []⟩, mem_ways_boundary.mpr ⟨?_, rfl⟩,
      ⟨text, rest, [text]⟩, ?_, rfl⟩
    · rw [hprev, hfirst hcall]
      decide
    · refine mem_ways_seq.mpr ⟨⟨text, rest, [text]⟩, mem_ways_group.mpr ⟨⟨text, rest, []⟩,
        mem_ways_callShape.mpr ⟨rfl, hcall, rfl⟩, rfl⟩, ⟨[], rest, []⟩,
        mem_ways_boundary.mpr ⟨?_, rfl⟩, by simp⟩
      rw [after_any_of_forall hcall.ne_nil hcall.isWord, hrest]
      simp

theorem fullmatch_callsignRe {w : Str} : fullmatch (callsignRe u) w = true ↔ IsCall u w := by
  simp only [fullmatch, List.any_eq_true, mem_ways_callsignRe, List.isEmpty_iff]
  constructor
  · rintro ⟨m, ⟨-, rfl, hcall, -, -⟩, hrest⟩
    simpa [hrest] using hcall
  · intro hcall
    exact ⟨⟨w, [], [w]⟩, ⟨rfl, by simp, hcall, rfl, rfl⟩, rfl⟩

instance instDecidableIsCall (w : Str) : Decidable (IsCall u w) := decidable_of_iff _ fullmatch_callsignRe

/-! ## Tokens of the text -/

/-- No call starts inside a word. -/
theorem findallFrom_inside {s : Str} (hs : ∀ c ∈ s, u.isWord c = true) (skip : ℕ)
    {prev : Option Char} (hprev : prev.any u.isWord = true) :
    findallFrom (callsignRe u) skip prev s = [] := by
  induction s generalizing skip prev with
  | nil => simp [findallFrom]
  | cons c s ih =>
    have hnext : (some c).any u.isWord = true := hs c (by simp)
    have htail := fun k => ih (fun d hd => hs d (by simp [hd])) k hnext
    cases skip with
    | succ k => exact htail k
    | zero =>
      have hnone : matchAt (callsignRe u) prev (c :: s) = none := by
        rw [matchAt_eq_none]
        intro m hm
        have hword := (mem_ways_callsignRe.mp hm).1
        rw [hprev] at hword
        cases hword
      rw [findallFrom, hnone]
      exact htail 0

theorem findallFrom_word {w : Str} (hw : ∀ c ∈ w, u.isWord c = true) {prev : Option Char}
    (hprev : prev.any u.isWord = false) :
    findallFrom (callsignRe u) 0 prev w = if IsCall u w then [⟨w, [], [w]⟩] else [] := by
  cases w with
  | nil =>
    rw [if_neg fun h => h.ne_nil rfl]
    rfl
  | cons c w =>
    have hinside : ∀ k, findallFrom (callsignRe u) k (some c) w = [] := by
      intro k
      have hfirst : (some c).any u.isWord = true := hw c (by simp)
      exact findallFrom_inside (fun d hd => hw d (by simp [hd])) k hfirst
    have honly : ∀ m ∈ ways (callsignRe u) prev (c :: w), m = ⟨c :: w, [], [c :: w]⟩ := by
      intro m hm
      obtain ⟨-, hsplit, -, hends, hgroups⟩ := mem_ways_callsignRe.mp hm
      have hrest : m.rest = [] := by
        cases hr : m.rest with
        | nil => rfl
        | cons d rest =>
          have hd : d ∈ c :: w := by rw [← hsplit, hr]; simp
          have hno : u.isWord d = false := by simpa [hr] using hends
          rw [hw d hd] at hno
          cases hno
      obtain ⟨text, rest, groups⟩ := m
      dsimp only at hsplit hrest hgroups
      subst hrest hgroups
      rw [List.append_nil] at hsplit
      rw [hsplit]
    by_cases hcall : IsCall u (c :: w)
    · have hmatch : matchAt (callsignRe u) prev (c :: w) = some ⟨c :: w, [], [c :: w]⟩ :=
        matchAt_of_unique
          (mem_ways_callsignRe.mpr ⟨hprev, by simp, hcall, rfl, rfl⟩) honly
      rw [findallFrom, hmatch, if_pos hcall]
      simp only
      rw [hinside]
    · have hnone : matchAt (callsignRe u) prev (c :: w) = none := by
        rw [matchAt_eq_none]
        intro m hm
        have hcall' := (mem_ways_callsignRe.mp hm).2.2.1
        rw [honly m hm] at hcall'
        exact hcall hcall'
      rw [findallFrom, hnone, if_neg hcall]
      exact hinside 0

/-- The tokens of a text are the words that have the shape of a call. -/
theorem findall_spaced {words : List Str} (hwords : ∀ w ∈ words, IsWordText w) :
    findall (callsignRe u) (spaced words) = words.filter fun w => IsCall u w := by
  suffices hfrom : ∀ prev : Option Char, prev.any u.isWord = false →
      (findallFrom (callsignRe u) 0 prev (spaced words)).map (fun m => m.groups.headD []) =
        words.filter fun w => IsCall u w from hfrom none rfl
  induction words with
  | nil =>
    intro prev _
    rfl
  | cons w ws ih =>
    intro prev hprev
    have hw : ∀ c ∈ w, u.isWord c = true := (hwords w (by simp)).isWord
    have htail := ih (fun v hv => hwords v (by simp [hv])) (some ' ') isWord_space
    rw [spaced_cons, findallFrom_append_sep callsignRe_avoids ways_callsignRe_nil
      (Nat.zero_le _), findallFrom_word hw hprev, List.map_append, htail, List.filter_cons]
    by_cases hcall : IsCall u w
    · simp [hcall, Match.extend]
    · simp [hcall]

/-! ## Calls behind `DE` -/

def de : Str := "DE".toList

/-- Some occurrence of the word stands directly behind the word `DE`; empty words do not
count. -/
def AfterDe (words : List Str) (m : Str) : Prop := [de, m] <:+: words.filter (· ≠ [])

/-- Behind white space stands the first word of the text, if it is a call. -/
theorem blank_call_iff {words : List Str} (hwords : ∀ w ∈ words, IsWordText w) {call : Str} :
    (∃ sp rest, spaced words = sp ++ (call ++ rest) ∧ (∀ c ∈ sp, isSpace c = true) ∧
        IsCall u call ∧ rest.head?.any u.isWord = false) ↔
      IsCall u call ∧ (words.filter (· ≠ [])).head? = some call := by
  induction words with
  | nil =>
    constructor
    · rintro ⟨sp, rest, hsplit, -, hcall, -⟩
      simp only [spaced, List.flatMap_nil, List.nil_eq, List.append_eq_nil_iff] at hsplit
      exact absurd hsplit.2.1 hcall.ne_nil
    · rintro ⟨-, hnone⟩
      simp at hnone
  | cons w ws ih =>
    have htail := ih fun v hv => hwords v (by simp [hv])
    have hw := hwords w (by simp)
    rw [spaced_cons]
    cases w with
    | nil =>
      have hfilter : (([] : Str) :: ws).filter (· ≠ []) = ws.filter (· ≠ []) := by simp
      rw [hfilter, ← htail]
      constructor
      · rintro ⟨sp, rest, hsplit, hsp, hcall, hends⟩
        cases sp with
        | nil =>
          -- a call does not start with a blank
          cases call with
          | nil => exact absurd rfl hcall.ne_nil
          | cons c call =>
            simp only [List.nil_append, List.cons_append, List.cons.injEq] at hsplit
            have hword := hcall.isWord c (by simp)
            rw [← hsplit.1, isWord_space] at hword
            cases hword
        | cons b sp =>
          simp only [List.nil_append, List.cons_append, List.cons.injEq] at hsplit
          exact ⟨sp, rest, hsplit.2, fun c hc => hsp c (by simp [hc]), hcall, hends⟩
      · rintro ⟨sp, rest, hsplit, hsp, hcall, hends⟩
        refine ⟨' ' :: sp, rest, by simp [hsplit], ?_, hcall, hends⟩
        intro c hc
        rcases List.mem_cons.mp hc with rfl | hc
        · decide
        · exact hsp c hc
    | cons a w =>
      have hfirst : ((a :: w) :: ws).filter (· ≠ []) = (a :: w) :: ws.filter (· ≠ []) := by simp
      rw [hfirst, List.head?_cons, Option.some.injEq]
      constructor
      · rintro ⟨sp, rest, hsplit, hsp, hcall, hends⟩
        have hnil : sp = [] := by
          cases sp with
          | nil => rfl
          | cons b sp =>
            simp only [List.cons_append, List.cons.injEq] at hsplit
            have hspace := hsp b (by simp)
            rw [← hsplit.1, hw.isSpace a (by simp)] at hspace
            cases hspace
        rw [hnil, List.nil_append] at hsplit
        have hsame := congrArg (List.takeWhile u.isWord) hsplit
        rw [takeWhile_append_of_head hw.isWord isWord_space,
          takeWhile_append_of_head hcall.isWord hends] at hsame
        exact ⟨hcall, hsame⟩
      · rintro ⟨hcall, rfl⟩
        exact ⟨[], ' ' :: spaced ws, rfl, by simp, hcall, isWord_space⟩

/-- `DE` and a call in a text: the text starts with them, or they stand behind its first
word. -/
theorem deCall_step {w t call : Str} (hw : ∀ c ∈ w, u.isWord c = true) :
    (∃ x y sp rest, w ++ ' ' :: t = x ++ y ∧ x.getLast?.any u.isWord = false ∧
        DeCall u y sp call rest) ↔
      (w = de ∧ ∃ sp rest, t = sp ++ (call ++ rest) ∧ (∀ c ∈ sp, isSpace c = true) ∧
        IsCall u call ∧ rest.head?.any u.isWord = false) ∨
      ∃ x y sp rest, t = x ++ y ∧ x.getLast?.any u.isWord = false ∧ DeCall u y sp call rest := by
  have hletters : ∀ c ∈ de, u.isWord c = true := by
    have hupper : ∀ c ∈ de, c.isUpper = true := List.all_iff_forall_prop.mp (by decide)
    exact fun c hc => isWord_of_isUpper (hupper c hc)
  constructor
  · rintro ⟨x, y, sp, rest, hsplit, hx, hde⟩
    have hhead : (sp ++ (call ++ rest)).head?.any u.isWord = false := by
      cases sp with
      | nil => exact absurd rfl hde.sp_ne
      | cons b sp => exact u.isWord_space b (hde.sp_space b (by simp))
    rcases List.append_eq_append_iff.mp hsplit with ⟨x', rfl, hrest⟩ | ⟨w', hw', hy⟩
    · -- they start behind the word
      right
      cases x' with
      | nil =>
        rw [hde.split, List.nil_append, List.cons.injEq] at hrest
        exact absurd hrest.1 (by decide)
      | cons b x' =>
        simp only [List.cons_append, List.cons.injEq] at hrest
        refine ⟨x', y, sp, rest, hrest.2, ?_, hde⟩
        cases hlast : x'.getLast? with
        | none => rfl
        | some c => simpa [List.getLast?_append, List.getLast?_cons, hlast] using hx
    · -- they start at the word, since its inside is no boundary
      left
      have hxnil : x = [] := by
        rcases List.eq_nil_or_concat x with hnil | ⟨front, c, hconcat⟩
        · exact hnil
        · rw [List.concat_eq_append] at hconcat
          have hword : u.isWord c = true := hw c (by rw [hw', hconcat]; simp)
          have hno : u.isWord c = false := by simpa [hconcat] using hx
          rw [hword] at hno
          cases hno
      rw [hxnil, List.nil_append] at hw'
      subst hw'
      have htext : w ++ ' ' :: t = de ++ (sp ++ (call ++ rest)) := hy.symm.trans hde.split
      have hword : w = de := by
        have hsame := congrArg (List.takeWhile u.isWord) htext
        rwa [takeWhile_append_of_head hw isWord_space,
          takeWhile_append_of_head hletters hhead] at hsame
      refine ⟨hword, ?_⟩
      rw [hword, List.append_cancel_left_eq] at htext
      cases sp with
      | nil => exact absurd rfl hde.sp_ne
      | cons b sp =>
        rw [List.cons_append, List.cons.injEq] at htext
        exact ⟨sp, rest, htext.2, fun c hc => hde.sp_space c (by simp [hc]), hde.isCall, hde.ends⟩
  · rintro (⟨rfl, sp, rest, rfl, hsp, hcall, hends⟩ | ⟨x, y, sp, rest, rfl, hx, hde⟩)
    · refine ⟨[], _, ' ' :: sp, rest, rfl, rfl, rfl, by simp, ?_, hcall, hends⟩
      intro c hc
      rcases List.mem_cons.mp hc with rfl | hc
      · decide
      · exact hsp c hc
    · refine ⟨w ++ ' ' :: x, y, sp, rest, by simp, ?_, hde⟩
      cases hlast : x.getLast? with
      | none => simp [List.getLast?_append, List.getLast?_cons, hlast, isWord_space]
      | some c =>
        rw [hlast] at hx
        simpa [List.getLast?_append, List.getLast?_cons, hlast] using hx

theorem afterDe_cons {w call : Str} {ws : List Str} :
    AfterDe (w :: ws) call ↔
      (w = de ∧ (ws.filter (· ≠ [])).head? = some call) ∨ AfterDe ws call := by
  by_cases hnil : w = []
  · subst hnil
    simp [AfterDe, de]
  · rw [AfterDe, List.filter_cons_of_pos (by simpa using hnil), List.infix_cons_iff, AfterDe]
    apply or_congr_left
    cases ws.filter (· ≠ []) with
    | nil => simp
    | cons v vs => simp [List.cons_prefix_cons, eq_comm]

/-- The calls found behind `DE` are the words that stand there. -/
theorem mem_deCalls_spaced {words : List Str} (hwords : ∀ w ∈ words, IsWordText w) {call : Str} :
    call ∈ findall (deCallRe u) (spaced words) ↔ IsCall u call ∧ AfterDe words call := by
  rw [mem_findall_deCallRe]
  induction words with
  | nil =>
    constructor
    · rintro ⟨x, y, sp, rest, hsplit, -, hde⟩
      rw [hde.split] at hsplit
      simp [spaced] at hsplit
    · rintro ⟨-, hinfix⟩
      simp [AfterDe] at hinfix
  | cons w ws ih =>
    have hw : ∀ c ∈ w, u.isWord c = true := (hwords w (by simp)).isWord
    have htail : ∀ v ∈ ws, IsWordText v := fun v hv => hwords v (by simp [hv])
    rw [spaced_cons, deCall_step hw, blank_call_iff htail, ih htail, afterDe_cons]
    tauto

/-! ## The whole text -/

theorem upperChar_of_isWordText {w : Str} (hw : IsWordText w) (c : Char) (hc : c ∈ w) :
    u.upperChar c = [c] := by
  have hrange : (65 ≤ c.toNat ∧ c.toNat ≤ 90) ∨ (48 ≤ c.toNat ∧ c.toNat ≤ 57) := by
    rcases hw c hc with hupper | hdigit
    · exact .inl (isUpper_iff.mp hupper)
    · exact .inr (toNat_of_isDigit hdigit)
  have hsame : c.toUpper = c := by
    apply dif_neg
    rintro ⟨hlow, -⟩
    have hlow' : 97 ≤ c.toNat := hlow
    omega
  rw [u.upperChar_ascii c (by omega), hsame]

theorem upper_spaced {words : List Str} (hwords : ∀ w ∈ words, IsWordText w) :
    u.upper (spaced words) = spaced words := by
  have hchar : ∀ c ∈ spaced words, u.upperChar c = [c] := by
    intro c hc
    obtain ⟨w, hw, hcw⟩ := List.mem_flatMap.mp hc
    rcases List.mem_append.mp hcw with hcw | hblank
    · exact upperChar_of_isWordText (hwords w hw) c hcw
    · rw [List.mem_singleton] at hblank
      subst hblank
      exact u.upperChar_ascii ' ' (by decide)
  rw [Unicode.upper, List.flatMap_congr hchar]
  simp

/-- What the two sides agree on: a call that is long enough or sent behind `DE`. -/
def Certain (u : Unicode) (words : List Str) (m : Str) : Prop :=
  m ∈ words ∧ IsCall u m ∧ hasPlausiblePrefix u m = true ∧
    (minUncorroboratedLen ≤ m.length ∨ AfterDe words m)

/-- A short call that is only repeated. -/
def OnlyRepeated (u : Unicode) (words : List Str) (m : Str) : Prop :=
  IsCall u m ∧ hasPlausiblePrefix u m = true ∧ m.length < minUncorroboratedLen ∧
    1 < words.count m ∧ ¬ AfterDe words m

theorem mem_extract_spaced {words : List Str} (hwords : ∀ w ∈ words, IsWordText w) {m : Str} :
    m ∈ extractCallsigns u (spaced words) ↔ Certain u words m ∨ OnlyRepeated u words m := by
  rw [mem_extractCallsigns, Admitted, upper_spaced hwords, findall_spaced hwords,
    mem_deCalls_spaced hwords, List.mem_filter, decide_eq_true_eq]
  constructor
  · rintro ⟨⟨hmem, hcall⟩, hplausible, hrule⟩
    by_cases hcertain : minUncorroboratedLen ≤ m.length ∨ AfterDe words m
    · exact .inl ⟨hmem, hcall, hplausible, hcertain⟩
    · rw [not_or] at hcertain
      have hcount : 1 < (words.filter fun w => IsCall u w).count m := by
        rcases hrule with hlen | ⟨-, hde⟩ | hcount
        · exact absurd hlen hcertain.1
        · exact absurd hde hcertain.2
        · exact hcount
      rw [List.count_filter (by simpa using hcall)] at hcount
      exact .inr ⟨hcall, hplausible, not_le.mp hcertain.1, hcount, hcertain.2⟩
  · rintro (⟨hmem, hcall, hplausible, hlen | hde⟩ | ⟨hcall, hplausible, -, hcount, -⟩)
    · exact ⟨⟨hmem, hcall⟩, hplausible, .inl hlen⟩
    · exact ⟨⟨hmem, hcall⟩, hplausible, .inr (.inl ⟨hcall, hde⟩)⟩
    · have hmem : m ∈ words := List.count_pos_iff.mp (by omega)
      refine ⟨⟨hmem, hcall⟩, hplausible, .inr (.inr ?_)⟩
      rwa [List.count_filter (by simpa using hcall)]

/-- A blank at the end of the text makes no difference. -/
theorem mem_extract_joined {words : List Str} {m : Str} :
    m ∈ extractCallsigns u (List.intercalate [' '] words) ↔
      m ∈ extractCallsigns u (spaced words) := by
  cases words with
  | nil => rfl
  | cons w ws =>
    have hjoin : ∀ (ws : List Str) (w : Str),
        spaced (w :: ws) = List.intercalate [' '] (w :: ws) ++ [' '] := by
      intro ws
      induction ws with
      | nil => simp [spaced, List.intercalate]
      | cons v ws ih =>
        intro w
        rw [spaced_cons, ih v, intercalate_cons w]
        simp
    rw [hjoin ws w]
    exact ⟨extractCallsigns_append_space [], extractCallsigns_of_append_space⟩

/-! ## The stream of words -/

namespace CWLogBridge

/-- The last word heard. -/
def lastWord (words : List Str) : Str := (words.filter (· ≠ [])).getLast?.getD []

theorem afterDe_concat {words : List Str} {w m : Str} (hne : w ≠ []) :
    AfterDe (words ++ [w]) m ↔ AfterDe words m ∨ (m = w ∧ lastWord words = de) := by
  have hfilter : (words ++ [w]).filter (· ≠ []) = words.filter (· ≠ []) ++ [w] := by
    simp [hne]
  rw [AfterDe, hfilter, List.infix_concat_iff, AfterDe, or_comm]
  apply or_congr_right
  rw [List.suffix_concat_iff, lastWord]
  generalize words.filter (· ≠ []) = heard
  constructor
  · rintro (hnil | ⟨t, ht, hsuffix⟩)
    · cases hnil
    · have hsame : ([de] : List Str) = t ∧ m = w := by
        have hsplit : [de] ++ [m] = t ++ [w] := ht
        obtain ⟨h₁, h₂⟩ := List.append_inj' hsplit rfl
        exact ⟨h₁, by simpa using h₂⟩
      refine ⟨hsame.2, ?_⟩
      obtain ⟨front, rfl⟩ := hsuffix
      simp [← hsame.1]
  · rintro ⟨rfl, hlast⟩
    refine .inr ⟨[de], rfl, ?_⟩
    rcases List.eq_nil_or_concat heard with hnil | ⟨front, v, hconcat⟩
    · rw [hnil] at hlast
      exact absurd hlast (by decide)
    · rw [hconcat, List.concat_eq_append] at hlast ⊢
      have hv : v = de := by simpa using hlast
      exact ⟨front, by rw [hv]⟩

variable (u)

/-- The bridge has taken the words, and none is unfinished. -/
structure Heard (words : List Str) (b : CWLogBridge) : Prop where
  word : b.word = []
  prevWord : b.prevWord = lastWord words
  callsigns : ∀ m, m ∈ b.draft.callsigns ↔ Certain u words m

variable {u}

theorem mem_of_afterDe {words : List Str} {m : Str} (h : AfterDe words m) : m ∈ words := by
  have hmem : m ∈ words.filter (· ≠ []) := h.subset (by simp)
  exact (List.mem_filter.mp hmem).1

theorem certain_concat {words : List Str} {w m : Str} (hne : w ≠ []) :
    Certain u (words ++ [w]) m ↔ Certain u words m ∨
      (m = w ∧ IsCall u w ∧ hasPlausiblePrefix u w = true ∧
        (minUncorroboratedLen ≤ w.length ∨ lastWord words = de ∨ Certain u words w)) := by
  constructor
  · rintro ⟨hmem, hcall, hplausible, hrule⟩
    rw [List.mem_append, List.mem_singleton] at hmem
    rw [afterDe_concat hne] at hrule
    rcases hrule with hlen | hde | ⟨rfl, hlast⟩
    · rcases hmem with hmem | rfl
      · exact .inl ⟨hmem, hcall, hplausible, .inl hlen⟩
      · exact .inr ⟨rfl, hcall, hplausible, .inl hlen⟩
    · exact .inl ⟨mem_of_afterDe hde, hcall, hplausible, .inr hde⟩
    · exact .inr ⟨rfl, hcall, hplausible, .inr (.inl hlast)⟩
  · have hkeep : ∀ v, Certain u words v → Certain u (words ++ [w]) v := by
      rintro v ⟨hmem, hcall, hplausible, hrule⟩
      refine ⟨List.mem_append_left _ hmem, hcall, hplausible, ?_⟩
      exact hrule.imp_right fun hde => (afterDe_concat hne).mpr (.inl hde)
    rintro (hold | ⟨rfl, hcall, hplausible, hlen | hlast | hold⟩)
    · exact hkeep m hold
    · exact ⟨by simp, hcall, hplausible, .inl hlen⟩
    · exact ⟨by simp, hcall, hplausible, .inr ((afterDe_concat hne).mpr (.inr ⟨rfl, hlast⟩))⟩
    · exact hkeep m hold

theorem takeWord_callsigns (b : CWLogBridge) {w : Str} (hne : w ≠ []) :
    (takeWord u b w).draft.callsigns =
      if IsCall u w ∧ hasPlausiblePrefix u w = true ∧
          (minUncorroboratedLen ≤ w.length ∨ b.prevWord = de ∨ w ∈ b.draft.callsigns) then
        b.draft.callsigns ++ [w]
      else b.draft.callsigns := by
  simp only [takeWord, hne, ite_false, fullmatch_callsignRe]
  by_cases hcall : IsCall u w
  · simp only [hcall, ite_true, true_and, de]
    split <;> rfl
  · simp only [hcall, ite_false, false_and]
    split <;> rfl

/-- Taking a word keeps what was certain, and adds the word if it is certain now. -/
theorem takeWord_heard {words : List Str} {b : CWLogBridge} (h : Heard u words b) (w : Str) :
    Heard u (words ++ [w]) (takeWord u b w) := by
  by_cases hne : w = []
  · have hsame : (words ++ [w]).filter (· ≠ []) = words.filter (· ≠ []) := by simp [hne]
    have hcertain : ∀ m, Certain u (words ++ [w]) m ↔ Certain u words m := by
      intro m
      simp only [Certain, AfterDe, hsame, List.mem_append, List.mem_singleton]
      constructor
      · rintro ⟨hmem | rfl, hcall, hrest⟩
        · exact ⟨hmem, hcall, hrest⟩
        · exact absurd hne hcall.ne_nil
      · rintro ⟨hmem, hrest⟩
        exact ⟨.inl hmem, hrest⟩
    have hskip : takeWord u b w = b := by simp [takeWord, hne]
    rw [hskip]
    refine ⟨h.word, ?_, fun m => (h.callsigns m).trans (hcertain m).symm⟩
    rw [h.prevWord, lastWord, lastWord, hsame]
  · refine ⟨?_, ?_, ?_⟩
    · simpa [takeWord, hne] using h.word
    · simp [takeWord, hne, lastWord]
    · intro m
      rw [takeWord_callsigns b hne, certain_concat hne, ← h.prevWord, ← h.callsigns w,
        ← h.callsigns m]
      split_ifs with hrule
      · rw [List.mem_append, List.mem_singleton]
        exact or_congr_right (and_iff_left hrule).symm
      · exact (or_iff_left fun hnew => hrule hnew.2).symm

/-! ## The stream of characters -/

theorem feed_append (b : CWLogBridge) (s t : Str) : feed u b (s ++ t) = feed u (feed u b s) t := by
  simp [feed]

/-- Within a word only the word, the raw copy and the run of blanks change. -/
theorem feed_word {w : Str} (hw : ' ' ∉ w) (b : CWLogBridge) :
    (feed u b w).word = b.word ++ w ∧ (feed u b w).prevWord = b.prevWord ∧
      (feed u b w).draft.callsigns = b.draft.callsigns := by
  induction w generalizing b with
  | nil => simp [feed]
  | cons c w ih =>
    simp only [List.mem_cons, not_or] at hw
    have hchar : ([c] : Str) ≠ [' '] := by simpa using Ne.symm hw.1
    have htail := ih hw.2 (onChar u b [c]).1
    have hstep : feed u b (c :: w) = feed u (onChar u b [c]).1 w := rfl
    rw [hstep, htail.1, htail.2.1, htail.2.2]
    simp [onChar, hchar]

theorem feed_spaced_word {words : List Str} {b : CWLogBridge} (h : Heard u words b) {w : Str}
    (hw : IsWordText w) : Heard u (words ++ [w]) (feed u b (w ++ [' '])) := by
  have hspace : ∀ c ∈ w, isSpace c = false := hw.isSpace
  have hblank : ' ' ∉ w := by
    intro hmem
    exact absurd (hspace ' ' hmem) (by decide)
  obtain ⟨hword, hprev, hcalls⟩ := feed_word hblank b (u := u)
  rw [feed_append]
  generalize feed u b w = b' at hword hprev hcalls
  have hstrip : strip b'.word = w := by
    rw [hword, h.word, List.nil_append]
    exact strip_of_forall hspace
  -- the blank takes the word from a bridge that has heard the words before it
  generalize hmid : ({ b' with
    draft := { b'.draft with raw := b'.draft.raw ++ [' '] }, word := [] } : CWLogBridge) = mid
  have hheard : Heard u words mid := by
    rw [← hmid]
    refine ⟨rfl, hprev.trans h.prevWord, ?_⟩
    intro m
    change m ∈ b'.draft.callsigns ↔ _
    rw [hcalls]
    exact h.callsigns m
  have htaken := takeWord_heard hheard w
  have hstep : feed u b' [' '] = { takeWord u mid w with
      spaceRun := (takeWord u mid w).spaceRun + 1 } := by
    rw [← hmid, ← hstrip]
    rfl
  rw [hstep]
  exact ⟨htaken.word, htaken.prevWord, htaken.callsigns⟩

theorem feed_spaced {words ws : List Str} {b : CWLogBridge} (h : Heard u words b)
    (hws : ∀ w ∈ ws, IsWordText w) : Heard u (words ++ ws) (feed u b (spaced ws)) := by
  induction ws generalizing words b with
  | nil => simpa [spaced, feed] using h
  | cons w ws ih =>
    have hstep := feed_spaced_word h (hws w (by simp))
    have hrest := ih hstep fun v hv => hws v (by simp [hv])
    have htext : spaced (w :: ws) = (w ++ [' ']) ++ spaced ws := by simp [spaced]
    rw [htext, feed_append]
    simpa using hrest

theorem heard_nil : Heard u [] {} := by
  refine ⟨rfl, rfl, ?_⟩
  intro m
  simp [Certain]

end CWLogBridge

/-- The live draft names the callsigns of the whole text exactly when no short call is only
repeated. -/
theorem streamed_callsigns_iff (u : Unicode) (words : List Str)
    (hwords : ∀ w ∈ words, IsWordText w) :
    (∀ m, m ∈ (CWLogBridge.feed u {} (words.flatMap (· ++ [' ']))).draft.callsigns ↔
        m ∈ extractCallsigns u (List.intercalate [' '] words)) ↔
      ∀ m, ¬ OnlyRepeated u words m := by
  have hheard : CWLogBridge.Heard u words (CWLogBridge.feed u {} (spaced words)) :=
    CWLogBridge.feed_spaced CWLogBridge.heard_nil hwords
  have hstream : ∀ m, m ∈ (CWLogBridge.feed u {} (words.flatMap (· ++ [' ']))).draft.callsigns ↔
      Certain u words m := hheard.callsigns
  simp only [hstream, mem_extract_joined, mem_extract_spaced hwords]
  constructor
  · intro hsame m honly
    obtain ⟨-, -, -, hcertain⟩ := (hsame m).mpr (.inr honly)
    rcases hcertain with hlen | hde
    · exact absurd honly.2.2.1 (not_lt.mpr hlen)
    · exact honly.2.2.2.2 hde
  · intro hnone m
    exact (or_iff_left (hnone m)).symm

theorem dx_streamed :
    (∀ w ∈ ["CQ".toList, "DE".toList, "K1A".toList, "K1A".toList], IsWordText w) ∧
    ((∀ m, m ∈ (CWLogBridge.feed .ascii {} (["CQ".toList, "DE".toList, "K1A".toList,
        "K1A".toList].flatMap (· ++ [' ']))).draft.callsigns ↔
        m ∈ extractCallsigns .ascii (List.intercalate [' '] ["CQ".toList, "DE".toList,
          "K1A".toList, "K1A".toList])) ↔
      ∀ m, ¬ OnlyRepeated .ascii ["CQ".toList, "DE".toList, "K1A".toList, "K1A".toList] m) := by
  have hwords : ∀ w ∈ ["CQ".toList, "DE".toList, "K1A".toList, "K1A".toList], IsWordText w := by
    have hchars : ["CQ".toList, "DE".toList, "K1A".toList, "K1A".toList].all (fun w =>
        w.all fun c => c.isUpper = true ∨ c.isDigit = true) = true := by decide
    intro w hw
    have hword := List.all_eq_true.mp hchars w hw
    exact List.all_iff_forall_prop.mp hword
  exact ⟨hwords, streamed_callsigns_iff .ascii _ hwords⟩

/-- A short call sent twice, with no `DE` before it. -/
theorem repeated_call_not_streamed :
    "K1A".toList ∈ extractCallsigns .ascii (List.intercalate [' '] ["K1A".toList, "K1A".toList]) ∧
    "K1A".toList ∉ (CWLogBridge.feed .ascii {}
      (["K1A".toList, "K1A".toList].flatMap (· ++ [' ']))).draft.callsigns := by
  decide +kernel

end CwStation.Bridge
