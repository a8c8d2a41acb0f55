import CwStation.Model.Urlencoded
import Mathlib.Tactic.Linarith
import Mathlib.Algebra.Order.BigOperators.Group.List
import Mathlib.Algebra.BigOperators.Group.List.Basic
import Mathlib.Data.List.TakeWhile

/-! # What form decoding leaves as it was

Decoding never makes a text longer, and an escape makes it shorter; so a text that comes
back with its length had no escape in it. Sizes are what the proofs about whole query
strings count. -/

namespace CwStation.Urlencoded

/-! ## UTF-8 -/

/-- The character a decoder still owes for the bytes it holds. -/
def owing : Option Pending → ℕ
  | none => 0
  | some _ => 1

theorem startByte_length (b : ℕ) :
    (startByte b).1.length + owing (startByte b).2 = 1 := by
  unfold startByte
  by_cases hb : b < 0x80
  · simp [hb, owing]
  · cases hl : lead b <;> simp [hb, owing]

theorem decodeUtf8_length_le (st : Option Pending) (bs : List ℕ) :
    (decodeUtf8 st bs).length ≤ bs.length + owing st := by
  induction bs generalizing st with
  | nil => cases st <;> simp [decodeUtf8, owing]
  | cons b bs ih =>
    have hstart := startByte_length b
    have hrest := ih (startByte b).2
    cases st with
    | none =>
      simp only [decodeUtf8, List.length_append, List.length_cons, owing]
      omega
    | some p =>
      by_cases hin : p.low ≤ b ∧ b ≤ p.high
      · by_cases howed : p.owed ≤ 1
        · have hnext := ih none
          simp only [decodeUtf8, hin, howed, and_self, if_true, List.length_cons, owing] at hnext ⊢
          omega
        · have hnext := ih (some { bits := p.bits * 64 + (b - 0x80), owed := p.owed - 1 })
          simp only [decodeUtf8, hin, howed, and_self, if_true, if_false,
            List.length_cons, owing] at hnext ⊢
          omega
      · simp only [decodeUtf8, hin, if_false, List.length_append, List.length_cons, owing]
        omega

/-! ## Runs of bytes -/

theorem decodeRuns_length_le (run : List ℕ) (ts : List (ℕ ⊕ Char)) :
    (decodeRuns run ts).length ≤ run.length + ts.length := by
  induction ts generalizing run with
  | nil => simpa [decodeRuns, owing] using decodeUtf8_length_le none run
  | cons t ts ih =>
    cases t with
    | inl b =>
      have hnext := ih (run ++ [b])
      simp only [decodeRuns, List.length_append, List.length_cons, List.length_nil] at hnext ⊢
      omega
    | inr c =>
      have hrun := decodeUtf8_length_le none run
      have hnext := ih []
      simp only [decodeRuns, List.length_append, List.length_cons, List.length_nil,
        owing] at hrun hnext ⊢
      omega

/-! ## Escapes -/

theorem tokens_length_lt {s : Str} (h : hasEscape s = true) : (tokens s).length < s.length := by
  induction s using tokens.induct with
  | case1 a b s byte hescape ih =>
    have hle := tokens_length_le s
    simp only [tokens, hescape, List.length_cons]
    omega
  | case2 a b s hescape ih =>
    have htail : hasEscape (a :: b :: s) = true := by simpa [hasEscape, hescape] using h
    have hlt := ih htail
    simp only [tokens, hescape, List.length_cons] at hlt ⊢
    omega
  | case3 c s hno ih =>
    rw [hasEscape] at h
    · rw [tokens]
      · simpa using ih h
      · exact hno
    · exact hno
  | case4 => simp [hasEscape] at h

theorem unquote_length_le (s : Str) : (unquote s).length ≤ s.length := by
  have hruns := decodeRuns_length_le [] (tokens s)
  have htokens := tokens_length_le s
  simp only [List.length_nil] at hruns
  unfold unquote
  omega

theorem unquote_length_lt {s : Str} (h : hasEscape s = true) :
    (unquote s).length < s.length := by
  have hruns := decodeRuns_length_le [] (tokens s)
  have htokens := tokens_length_lt h
  simp only [List.length_nil] at hruns
  unfold unquote
  omega

theorem unquote_plain {s : Str} (h : hasEscape s = false) : unquote s = s := by
  rw [unquote, tokens_plain h]
  simpa using decodeRuns_plain [] s (by simp)

/-! ## `+` -/

theorem hexDigit_plus (c : Char) : hexDigit (if c = '+' then ' ' else c) = hexDigit c := by
  by_cases hc : c = '+'
  · subst hc
    decide
  · simp [hc]

theorem escape_plus (a b : Char) :
    escape (if a = '+' then ' ' else a) (if b = '+' then ' ' else b) = escape a b := by
  simp only [escape, hexDigit_plus]

theorem hasEscape_cons_of_ne {c : Char} (hc : c ≠ '%') (s : Str) :
    hasEscape (c :: s) = hasEscape s := by
  rw [hasEscape]
  intro a b rest heq
  exact absurd heq hc

@[simp] theorem hasEscape_plusToSpace (s : Str) : hasEscape (plusToSpace s) = hasEscape s := by
  induction s using hasEscape.induct with
  | case1 a b s ih =>
    simp only [plusToSpace, List.map_cons] at ih ⊢
    rw [if_neg (by decide), hasEscape, hasEscape, escape_plus, ih]
  | case2 c s hno ih =>
    rw [hasEscape.eq_2 c s hno, ← ih]
    by_cases hc : c = '%'
    · subst hc
      cases s with
      | nil => rfl
      | cons a s =>
        cases s with
        | nil => rfl
        | cons b s => exact absurd rfl (hno a b s rfl)
    · rw [plusToSpace, List.map_cons, hasEscape_cons_of_ne]
      · rfl
      · intro heq
        by_cases hp : c = '+'
        · simp [hp] at heq
        · simp [hp] at heq
          exact hc heq
  | case3 => rfl

@[simp] theorem plusToSpace_length (s : Str) : (plusToSpace s).length = s.length := by
  simp [plusToSpace]

theorem plusToSpace_plain {s : Str} (h : '+' ∉ s) : plusToSpace s = s := by
  rw [plusToSpace]
  nth_rewrite 2 [← List.map_id s]
  apply List.map_congr_left
  intro c hc
  rw [if_neg (ne_of_mem_of_not_mem hc h)]
  rfl

theorem not_mem_plusToSpace (s : Str) : '+' ∉ plusToSpace s := by
  intro h
  obtain ⟨c, -, heq⟩ := List.mem_map.mp h
  by_cases hc : c = '+'
  · simp [hc] at heq
  · rw [if_neg hc] at heq
    exact hc heq

theorem mem_plusToSpace_eq {s : Str} (h : '=' ∈ plusToSpace s) : '=' ∈ s := by
  obtain ⟨c, hc, heq⟩ := List.mem_map.mp h
  by_cases hplus : c = '+'
  · simp [hplus] at heq
  · rw [if_neg hplus] at heq
    exact heq ▸ hc

theorem unquotePlus_length_le (s : Str) : (unquotePlus s).length ≤ s.length := by
  simpa [unquotePlus] using unquote_length_le (plusToSpace s)

/-- A text that keeps its length has no escape in it, and its decoding only exchanges the
plus signs. -/
theorem unquotePlus_of_length {s : Str} (h : s.length ≤ (unquotePlus s).length) :
    hasEscape s = false ∧ unquotePlus s = plusToSpace s := by
  by_cases hs : hasEscape s = true
  · have hlt := unquote_length_lt (hasEscape_plusToSpace s ▸ hs)
    rw [plusToSpace_length] at hlt
    exact absurd hlt (not_lt.mpr h)
  · have hplain : hasEscape s = false := Bool.eq_false_iff.mpr hs
    exact ⟨hplain, unquote_plain (by rw [hasEscape_plusToSpace, hplain])⟩

theorem unquotePlus_plain {s : Str} (hplus : '+' ∉ s) (hescape : hasEscape s = false) :
    unquotePlus s = s := by
  rw [unquotePlus, plusToSpace_plain hplus, unquote_plain hescape]

/-! ## Pairs -/

/-- How much text a pair holds. -/
def size (entry : Str × Str) : ℕ := entry.1.length + entry.2.length

/-- A pair whose text stands for itself. -/
structure Plain (entry : Str × Str) : Prop where
  name_amp : '&' ∉ entry.1
  name_eq : '=' ∉ entry.1
  name_plus : '+' ∉ entry.1
  name_escape : hasEscape entry.1 = false
  value_amp : '&' ∉ entry.2
  value_plus : '+' ∉ entry.2
  value_escape : hasEscape entry.2 = false

theorem piece_length (piece : Str) :
    (piece.takeWhile (· ≠ '=')).length + ((piece.dropWhile (· ≠ '=')).drop 1).length +
      (if '=' ∈ piece then 1 else 0) = piece.length := by
  induction piece with
  | nil => simp
  | cons c piece ih =>
    by_cases hc : c = '='
    · simp [hc]
    · have hne : ¬('=' = c) := fun h => hc h.symm
      simp only [List.takeWhile_cons, List.dropWhile_cons, List.mem_cons, hc, hne, ne_eq,
        not_false_eq_true, decide_true, if_true, List.length_cons, false_or] at ih ⊢
      omega

theorem size_parsePair_le (piece : Str) :
    size (parsePair piece) + (if '=' ∈ piece then 1 else 0) ≤ piece.length := by
  have hlength := piece_length piece
  have hname := unquotePlus_length_le (piece.takeWhile (· ≠ '='))
  have hvalue := unquotePlus_length_le ((piece.dropWhile (· ≠ '=')).drop 1)
  simp only [size, parsePair]
  omega

/-- Only what stands behind a `=` is a value. -/
theorem mem_of_value_ne {piece : Str} (h : (parsePair piece).2 ≠ []) : '=' ∈ piece := by
  by_contra hno
  apply h
  have hdrop : piece.dropWhile (· ≠ '=') = [] := by
    rw [List.dropWhile_eq_nil_iff]
    intro c hc
    simpa using ne_of_mem_of_not_mem hc hno
  rw [parsePair, hdrop]
  rfl

/-- A piece read without a change of length: no escapes, and no separators but the first. -/
structure Kept (piece : Str) : Prop where
  name_eq : '=' ∉ (parsePair piece).1
  name_plus : '+' ∉ (parsePair piece).1
  value_plus : '+' ∉ (parsePair piece).2
  name_escape : hasEscape (piece.takeWhile (· ≠ '=')) = false
  value_escape : hasEscape ((piece.dropWhile (· ≠ '=')).drop 1) = false

theorem kept_of_size {piece : Str} (heq : '=' ∈ piece)
    (h : piece.length ≤ size (parsePair piece) + 1) : Kept piece := by
  have hlength := piece_length piece
  have hname := unquotePlus_length_le (piece.takeWhile (· ≠ '='))
  have hvalue := unquotePlus_length_le ((piece.dropWhile (· ≠ '=')).drop 1)
  rw [if_pos heq] at hlength
  simp only [size, parsePair] at h
  obtain ⟨hnameEscape, hnameRead⟩ :=
    unquotePlus_of_length (s := piece.takeWhile (· ≠ '=')) (by omega)
  obtain ⟨hvalueEscape, hvalueRead⟩ :=
    unquotePlus_of_length (s := (piece.dropWhile (· ≠ '=')).drop 1) (by omega)
  refine ⟨?_, ?_, ?_, hnameEscape, hvalueEscape⟩
  · intro hmem
    rw [parsePair, hnameRead] at hmem
    exact absurd (List.mem_takeWhile_imp (mem_plusToSpace_eq hmem)) (by simp)
  · rw [parsePair, hnameRead]
    exact not_mem_plusToSpace _
  · rw [parsePair, hvalueRead]
    exact not_mem_plusToSpace _

/-- The text of one pair. -/
def pairText (entry : Str × Str) : Str := entry.1 ++ '=' :: entry.2

theorem pairText_length (entry : Str × Str) : (pairText entry).length = size entry + 1 := by
  simp only [pairText, List.length_append, List.length_cons, size]
  omega

theorem takeWhile_pairText {entry : Str × Str} (h : '=' ∉ entry.1) :
    (pairText entry).takeWhile (· ≠ '=') = entry.1 := by
  rw [pairText, List.takeWhile_append_of_pos]
  · simp
  · intro c hc
    simpa using ne_of_mem_of_not_mem hc h

theorem dropWhile_pairText {entry : Str × Str} (h : '=' ∉ entry.1) :
    ((pairText entry).dropWhile (· ≠ '=')).drop 1 = entry.2 := by
  rw [pairText, List.dropWhile_append_of_pos]
  · simp
  · intro c hc
    simpa using ne_of_mem_of_not_mem hc h

theorem parsePair_plain {entry : Str × Str} (h : Plain entry) :
    parsePair (pairText entry) = entry := by
  rw [parsePair, takeWhile_pairText h.name_eq, dropWhile_pairText h.name_eq,
    unquotePlus_plain h.name_plus h.name_escape, unquotePlus_plain h.value_plus h.value_escape]

/-! ## Whole query strings -/

theorem splitOn_length (a : Char) (s : Str) : (s.splitOn a).length = s.count a + 1 := by
  induction s with
  | nil => simp
  | cons c s ih =>
    rw [List.splitOn_cons_eq_if_modifyHead]
    by_cases hc : c = a
    · simp [hc, ih]
    · simp [hc, ih]

theorem count_intercalate (a : Char) {ls : List Str} (h : ls ≠ []) :
    (List.intercalate [a] ls).count a + 1 = (ls.map (List.count a)).sum + ls.length := by
  induction ls with
  | nil => exact absurd rfl h
  | cons l ls ih =>
    cases ls with
    | nil => simp
    | cons l' ls =>
      have htail := ih (by simp)
      rw [List.intercalate_cons_cons]
      simp only [List.count_append, List.count_singleton_self, List.map_cons, List.sum_cons,
        List.length_cons] at htail ⊢
      omega

theorem length_intercalate (a : Char) {ls : List Str} (h : ls ≠ []) :
    (List.intercalate [a] ls).length + 1 = (ls.map List.length).sum + ls.length := by
  induction ls with
  | nil => exact absurd rfl h
  | cons l ls ih =>
    cases ls with
    | nil => simp
    | cons l' ls =>
      have htail := ih (by simp)
      rw [List.intercalate_cons_cons]
      simp only [List.length_append, List.length_cons, List.length_nil, List.map_cons,
        List.sum_cons] at htail ⊢
      omega

theorem joinPairs_eq (pairs : List (Str × Str)) :
    joinPairs pairs = List.intercalate ['&'] (pairs.map pairText) := rfl

theorem sum_pairText_length (pairs : List (Str × Str)) :
    ((pairs.map pairText).map List.length).sum = (pairs.map size).sum + pairs.length := by
  induction pairs with
  | nil => rfl
  | cons entry pairs ih =>
    simp only [List.map_cons, List.sum_cons, List.length_cons, ih, pairText_length]
    omega

theorem sum_filter_length (pieces : List Str) :
    ((pieces.filter (· ≠ [])).map List.length).sum = (pieces.map List.length).sum := by
  induction pieces with
  | nil => rfl
  | cons piece pieces ih =>
    by_cases hp : piece = []
    · simpa [hp] using ih
    · rw [List.filter_cons_of_pos (by simpa using hp)]
      simp only [List.map_cons, List.sum_cons, ih]

/-- The pairs read from pieces that all have a value hold less text than the pieces, by
the equals signs. -/
theorem sum_size_parsePair_le (pieces : List Str) (h : ∀ piece ∈ pieces, '=' ∈ piece) :
    ((pieces.map parsePair).map size).sum + pieces.length ≤ (pieces.map List.length).sum := by
  induction pieces with
  | nil => simp
  | cons piece pieces ih =>
    have htail := ih fun q hq => h q (by simp [hq])
    have hhead := size_parsePair_le piece
    rw [if_pos (h piece (by simp))] at hhead
    simp only [List.map_cons, List.sum_cons, List.length_cons]
    omega

/-- Pairs without a separator are read one by one. -/
theorem parseQsl_of_not_amp {pairs : List (Str × Str)}
    (hamp : ∀ text ∈ pairs.map pairText, '&' ∉ text) :
    parseQsl (joinPairs pairs) = pairs.map fun entry => parsePair (pairText entry) := by
  by_cases hnil : pairs = []
  · subst hnil
    rfl
  · have hkeep : (pairs.map pairText).filter (· ≠ []) = pairs.map pairText := by
      rw [List.filter_eq_self]
      intro text htext
      obtain ⟨entry, -, rfl⟩ := List.mem_map.mp htext
      simp [pairText]
    rw [parseQsl, joinPairs_eq, List.splitOn_intercalate '&' hamp (by simpa using hnil), hkeep,
      List.map_map]
    rfl

/-- What is read holds no more text than what was written, and the separators inside the
pairs are paid for twice: each takes a character and makes one more piece. -/
theorem size_parseQsl_le (pairs : List (Str × Str))
    (hvalue : ∀ entry ∈ parseQsl (joinPairs pairs), entry.2 ≠ []) :
    ((parseQsl (joinPairs pairs)).map size).sum + (parseQsl (joinPairs pairs)).length +
        ((pairs.map pairText).map (List.count '&')).sum ≤ (pairs.map size).sum + pairs.length ∧
      (parseQsl (joinPairs pairs)).length ≤
        pairs.length + ((pairs.map pairText).map (List.count '&')).sum := by
  by_cases hnil : pairs = []
  · subst hnil
    exact ⟨le_rfl, le_rfl⟩
  · have hne : pairs.map pairText ≠ [] := by simpa using hnil
    have hpieces : ∀ piece ∈ ((joinPairs pairs).splitOn '&').filter (· ≠ []), '=' ∈ piece :=
      fun piece hpiece => mem_of_value_ne (hvalue _ (List.mem_map_of_mem hpiece))
    have hread := sum_size_parsePair_le _ hpieces
    have hsplit := length_intercalate '&' (List.splitOn_ne_nil '&' (joinPairs pairs))
    rw [List.intercalate_splitOn, splitOn_length, ← sum_filter_length] at hsplit
    have hjoin := length_intercalate '&' hne
    rw [← joinPairs_eq, sum_pairText_length, List.length_map] at hjoin
    have hamps := count_intercalate '&' hne
    rw [← joinPairs_eq, List.length_map] at hamps
    have hkept := List.length_filter_le (· ≠ []) ((joinPairs pairs).splitOn '&')
    rw [splitOn_length] at hkept
    simp only [parseQsl, List.length_map]
    omega

theorem not_amp_of_plain {pairs : List (Str × Str)} (hplain : ∀ entry ∈ pairs, Plain entry) :
    ∀ text ∈ pairs.map pairText, '&' ∉ text := by
  intro text htext
  obtain ⟨entry, hentry, rfl⟩ := List.mem_map.mp htext
  simp [pairText, (hplain entry hentry).name_amp, (hplain entry hentry).value_amp]

/-- A query string of pairs that stand for themselves is read as these pairs. -/
theorem parseQsl_joinPairs {pairs : List (Str × Str)} (hplain : ∀ entry ∈ pairs, Plain entry) :
    parseQsl (joinPairs pairs) = pairs := by
  have hread : pairs.map (fun entry => parsePair (pairText entry)) = pairs := by
    nth_rewrite 2 [← List.map_id pairs]
    exact List.map_congr_left fun entry hentry => parsePair_plain (hplain entry hentry)
  rw [parseQsl_of_not_amp (not_amp_of_plain hplain), hread]

section Unchanged

variable {pairs : List (Str × Str)} (hvalue : ∀ entry ∈ pairs, entry.2 ≠ [])

include hvalue

/-- Pairs that come back as they were contain no separator: each one more would have cost
a character. -/
theorem not_amp_of_perm (hperm : (parseQsl (joinPairs pairs)).Perm pairs) :
    ∀ text ∈ pairs.map pairText, '&' ∉ text := by
  obtain ⟨hread, -⟩ := size_parseQsl_le pairs
    fun entry hentry => hvalue _ (hperm.mem_iff.mp hentry)
  rw [(hperm.map size).sum_eq, hperm.length_eq] at hread
  have hzero : ((pairs.map pairText).map (List.count '&')).sum = 0 := by omega
  intro text htext hamp
  have hpos := List.count_pos_iff.mpr hamp
  have hle := List.single_le_sum (by simp) _ (List.mem_map_of_mem (f := List.count '&') htext)
  omega

/-- The decoding of such pairs keeps all of their text, so it changed none of it. -/
theorem plain_of_perm (hperm : (parseQsl (joinPairs pairs)).Perm pairs) :
    ∀ entry ∈ pairs, Plain entry := by
  have hamp := not_amp_of_perm hvalue hperm
  rw [parseQsl_of_not_amp hamp] at hperm
  have hsize : ((pairs.map fun entry => parsePair (pairText entry)).map size).sum =
      (pairs.map size).sum := (hperm.map size).sum_eq
  have hread : ∀ entry ∈ pairs, size (parsePair (pairText entry)) ≤ size entry := by
    intro entry _
    have hle := size_parsePair_le (pairText entry)
    rw [if_pos (by simp [pairText]), pairText_length] at hle
    omega
  have hsame : ∀ entry ∈ pairs, size entry ≤ size (parsePair (pairText entry)) := by
    intro entry hentry
    by_contra hlt
    have hsum := List.sum_lt_sum _ _ hread ⟨entry, hentry, not_le.mp hlt⟩
    rw [List.map_map] at hsize
    exact absurd hsize (ne_of_lt hsum)
  have hkept : ∀ entry ∈ pairs, Kept (pairText entry) := by
    intro entry hentry
    apply kept_of_size (by simp [pairText])
    have hle := hsame entry hentry
    rw [pairText_length]
    omega
  intro entry hentry
  -- what the pair holds was read from some piece, so it has no `=` in its name and no `+`
  obtain ⟨source, hsource, hparsed⟩ := List.mem_map.mp (hperm.mem_iff.mpr hentry)
  have hclean := hkept source hsource
  have hnameEq : '=' ∉ entry.1 := hparsed ▸ hclean.name_eq
  have hnamePlus : '+' ∉ entry.1 := hparsed ▸ hclean.name_plus
  have hvaluePlus : '+' ∉ entry.2 := hparsed ▸ hclean.value_plus
  -- its own piece therefore splits where it was joined
  have hown := hkept entry hentry
  have hnameEscape := hown.name_escape
  have hvalueEscape := hown.value_escape
  rw [takeWhile_pairText hnameEq] at hnameEscape
  rw [dropWhile_pairText hnameEq] at hvalueEscape
  have hentryAmp := hamp _ (List.mem_map_of_mem hentry)
  simp only [pairText, List.mem_append, List.mem_cons, not_or] at hentryAmp
  exact
    { name_amp := hentryAmp.1, name_eq := hnameEq, name_plus := hnamePlus,
      name_escape := hnameEscape, value_amp := hentryAmp.2.2, value_plus := hvaluePlus,
      value_escape := hvalueEscape }

/-- A query string carries its pairs exactly when each of them stands for itself. -/
theorem parseQsl_joinPairs_perm_iff :
    (parseQsl (joinPairs pairs)).Perm pairs ↔ ∀ entry ∈ pairs, Plain entry := by
  constructor
  · exact plain_of_perm hvalue
  · intro hplain
    rw [parseQsl_joinPairs hplain]

end Unchanged

/-! ### What a reader of single names sees -/

theorem count_getlist (q : QueryDict) (entry : Str × Str) :
    (q.getlist entry.1).count entry.2 = q.count entry := by
  induction q with
  | nil => rfl
  | cons e q ih =>
    simp only [QueryDict.getlist] at ih ⊢
    by_cases hname : e.1 = entry.1
    · by_cases hvalue : e.2 = entry.2
      · have heq : e = entry := Prod.ext hname hvalue
        simp [heq, ih]
      · have hne : e ≠ entry := fun h => hvalue (by rw [h])
        simp [hname, hvalue, hne, ih]
    · have hne : e ≠ entry := fun h => hname (by rw [h])
      simp [hname, hne, ih]

/-- Two query strings that answer the same for every name hold the same pairs. -/
theorem perm_of_getlist {q entries : QueryDict} (h : ∀ name, q.getlist name = entries.getlist name) :
    q.Perm entries := by
  rw [List.perm_iff_count]
  intro entry
  rw [← count_getlist, ← count_getlist, h]

/-- A query string answers for every name as its pairs do exactly when each of them stands
for itself. -/
theorem getlist_parseQsl_iff {pairs : List (Str × Str)} (hvalue : ∀ entry ∈ pairs, entry.2 ≠ []) :
    (∀ name, QueryDict.getlist (parseQsl (joinPairs pairs)) name = QueryDict.getlist pairs name) ↔
      ∀ entry ∈ pairs, Plain entry := by
  constructor
  · intro hsame
    exact plain_of_perm hvalue (perm_of_getlist hsame)
  · intro hplain name
    rw [parseQsl_joinPairs hplain]

end CwStation.Urlencoded
