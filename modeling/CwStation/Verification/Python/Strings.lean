import CwStation.Model.Python

/-! # Facts about the string methods -/

namespace CwStation

theorem exists_last_space {s : Str} (h : ' ' ∈ s) : ∃ a b, s = a ++ ' ' :: b ∧ ' ' ∉ b := by
  induction s with
  | nil => simp at h
  | cons c s ih =>
    by_cases hs : ' ' ∈ s
    · obtain ⟨a, b, rfl, hb⟩ := ih hs
      exact ⟨c :: a, b, rfl, hb⟩
    · rcases List.mem_cons.mp h with rfl | h
      · exact ⟨[], s, rfl, hs⟩
      · exact absurd h hs

theorem beforeLastSpace_append {a b : Str} (hb : ' ' ∉ b) :
    beforeLastSpace (a ++ ' ' :: b) = a := by
  have hstop : (b.reverse ++ ' ' :: a.reverse).dropWhile (· != ' ') = ' ' :: a.reverse := by
    rw [List.dropWhile_append_of_pos]
    · simp
    · intro c hc
      have hne : c ≠ ' ' := by
        rintro rfl
        exact hb (List.mem_reverse.mp hc)
      simpa using hne
  simp [beforeLastSpace, hstop]

theorem beforeLastSpace_of_not_mem {s : Str} (h : ' ' ∉ s) : beforeLastSpace s = s := by
  simp [beforeLastSpace, h]

/-! ## `rstrip` -/

theorem rstrip_append_space {s : Str} {c : Char} (hc : isSpace c = true) :
    rstrip (s ++ [c]) = rstrip s := by
  simp [rstrip, hc]

theorem rstrip_of_last {s : Str} {c : Char} (hc : isSpace c = false) :
    rstrip (s ++ [c]) = s ++ [c] := by
  simp [rstrip, hc]

theorem endsWithSpace_rstrip (s : Str) : endsWithSpace (rstrip s) = false := by
  have hhead := List.head?_dropWhile_not isSpace s.reverse
  rw [endsWithSpace, rstrip, List.getLast?_reverse, beq_eq_false_iff_ne]
  intro hspace
  rw [hspace] at hhead
  exact absurd hhead (by decide)

/-! ## `strip` -/

theorem strip_eq_self {s : Str} (hhead : ∀ c ∈ s.head?, isSpace c = false)
    (hlast : ∀ c ∈ s.getLast?, isSpace c = false) : strip s = s := by
  have hfix : ∀ r : Str, (∀ c ∈ r.head?, isSpace c = false) → r.dropWhile isSpace = r := by
    intro r hr
    cases r with
    | nil => rfl
    | cons c r => simp [hr c rfl]
  rw [strip, lstrip, hfix s hhead, rstrip, hfix s.reverse fun c hc => hlast c (by simpa using hc),
    List.reverse_reverse]

theorem rstrip_isPrefix (s : Str) : ∃ rest, s = rstrip s ++ rest := by
  obtain ⟨front, hfront⟩ := List.dropWhile_suffix isSpace (l := s.reverse)
  refine ⟨front.reverse, ?_⟩
  rw [rstrip, ← List.reverse_append, hfront, List.reverse_reverse]

theorem rstrip_last {s : Str} {c : Char} (hc : c ∈ (rstrip s).getLast?) : isSpace c = false := by
  have hhead := List.head?_dropWhile_not isSpace s.reverse
  rw [rstrip, List.getLast?_reverse] at hc
  rw [Option.mem_def.mp hc] at hhead
  simpa using hhead

theorem strip_head {s : Str} {c : Char} (hc : c ∈ (strip s).head?) : isSpace c = false := by
  obtain ⟨rest, hrest⟩ := rstrip_isPrefix (lstrip s)
  have hhead := List.head?_dropWhile_not isSpace s
  have hfront : (lstrip s).head? = some c := by
    rw [hrest, ← strip, List.head?_append, Option.mem_def.mp hc, Option.some_or]
  rw [← lstrip, hfront] at hhead
  simpa using hhead

theorem strip_last {s : Str} {c : Char} (hc : c ∈ (strip s).getLast?) : isSpace c = false :=
  rstrip_last hc

theorem strip_strip (s : Str) : strip (strip s) = strip s :=
  strip_eq_self (fun _ hc => strip_head hc) fun _ hc => strip_last hc

/-- The characters of a text that are no white space. -/
def inked (s : Str) : ℕ := s.countP fun c => !isSpace c

theorem inked_append (s t : Str) : inked (s ++ t) = inked s + inked t := List.countP_append

theorem inked_dropWhile {p : Char → Bool} (hp : ∀ c, p c = true → isSpace c = true) (s : Str) :
    inked (s.dropWhile p) = inked s := by
  induction s with
  | nil => rfl
  | cons c s ih =>
    rw [List.dropWhile_cons]
    by_cases hc : p c = true
    · rw [if_pos hc, ih]
      simp [inked, hp c hc]
    · rw [if_neg hc]

theorem inked_rstrip (s : Str) : inked (rstrip s) = inked s := by
  have hreverse : ∀ t : Str, inked t.reverse = inked t := fun t => List.countP_reverse
  rw [rstrip, hreverse, inked_dropWhile (fun _ hc => hc), hreverse]

theorem inked_strip (s : Str) : inked (strip s) = inked s := by
  rw [strip, inked_rstrip, lstrip, inked_dropWhile fun _ hc => hc]

theorem rstrip_eq_nil_iff {s : Str} : rstrip s = [] ↔ inked s = 0 := by
  rw [← inked_rstrip]
  constructor
  · intro h
    rw [h]
    rfl
  · intro h
    by_contra hne
    have hlast := rstrip_last (List.getLast?_eq_some_getLast hne)
    have hmem := List.getLast_mem hne
    rw [inked, List.countP_eq_zero] at h
    simpa [hlast] using h _ hmem

/-! ## `" ".join(s.split())` -/

theorem splitFrom_of_word {w : Str} (h : ∀ c ∈ w, isSpace c = false) : splitFrom w = (w, []) := by
  induction w with
  | nil => rfl
  | cons c w ih =>
    simp [splitFrom, ih fun d hd => h d (List.mem_cons_of_mem c hd), h c List.mem_cons_self]

/-- What `collapseSpaces` makes of the text behind a character that is no white space. -/
def collapseAfter (s : Str) : Str := List.intercalate [' '] ((splitFrom s).1 :: (splitFrom s).2)

theorem intercalate_cons (w : Str) (ws : List Str) :
    List.intercalate [' '] (w :: ws) =
      w ++ if ws = [] then [] else ' ' :: List.intercalate [' '] ws := by
  cases ws with
  | nil => simp [List.intercalate]
  | cons v vs => simp [List.intercalate, List.intersperse]

theorem splitSpaces_cons_space {c : Char} (hc : isSpace c = true) (s : Str) :
    splitSpaces (c :: s) = splitSpaces s := by
  simp [splitSpaces, splitFrom, hc]

theorem collapseSpaces_cons_space {c : Char} (hc : isSpace c = true) (s : Str) :
    collapseSpaces (c :: s) = collapseSpaces s := by
  rw [collapseSpaces, splitSpaces_cons_space hc, collapseSpaces]

theorem collapseSpaces_cons {c : Char} (hc : isSpace c = false) (s : Str) :
    collapseSpaces (c :: s) = c :: collapseAfter s := by
  simp [collapseSpaces, collapseAfter, splitSpaces, splitFrom, hc, intercalate_cons]

theorem collapseAfter_cons {c : Char} (hc : isSpace c = false) (s : Str) :
    collapseAfter (c :: s) = c :: collapseAfter s := by
  simp [collapseAfter, splitFrom, hc, intercalate_cons]

theorem collapseAfter_append {w : Str} (hw : ∀ c ∈ w, isSpace c = false) (s : Str) :
    collapseAfter (w ++ s) = w ++ collapseAfter s := by
  induction w with
  | nil => rfl
  | cons c w ih =>
    rw [List.cons_append, collapseAfter_cons (hw c List.mem_cons_self),
      ih fun d hd => hw d (List.mem_cons_of_mem c hd)]
    rfl

/-- A word at the front of a text is kept as it is. -/
theorem collapseSpaces_append {w : Str} (hne : w ≠ []) (hw : ∀ c ∈ w, isSpace c = false)
    (s : Str) : collapseSpaces (w ++ s) = w ++ collapseAfter s := by
  cases w with
  | nil => exact absurd rfl hne
  | cons c w =>
    rw [List.cons_append, collapseSpaces_cons (hw c List.mem_cons_self),
      collapseAfter_append fun d hd => hw d (List.mem_cons_of_mem c hd)]
    rfl

/-- White space behind a word becomes one blank, if another word follows. -/
theorem collapseAfter_cons_space {c : Char} (hc : isSpace c = true) (s : Str) :
    collapseAfter (c :: s) = if splitSpaces s = [] then [] else ' ' :: collapseSpaces s := by
  have hsplit : splitFrom (c :: s) = ([], splitSpaces s) := by simp [splitFrom, splitSpaces, hc]
  rw [collapseAfter, hsplit, intercalate_cons, List.nil_append, collapseSpaces]

/-! ## Decimal numbers in text -/

variable (u : Unicode)

theorem toNat_of_isDigit {c : Char} (h : c.isDigit = true) : 48 ≤ c.toNat ∧ c.toNat ≤ 57 := by
  simp only [Char.isDigit, Bool.and_eq_true, decide_eq_true_eq, ge_iff_le,
    UInt32.le_iff_toNat_le] at h
  exact h

theorem decimal_of_isDigit {c : Char} (h : c.isDigit = true) :
    u.decimal c = some (c.toNat - 48) := by
  have hrange := toNat_of_isDigit h
  rw [u.decimal_ascii c (by omega), if_pos h]

theorem isSpace_of_isDigit {c : Char} (h : c.isDigit = true) : isSpace c = false := by
  have hrange := toNat_of_isDigit h
  simp only [isSpace, Bool.or_eq_false_iff, Bool.and_eq_false_iff, decide_eq_false_iff_not,
    beq_eq_false_iff_ne]
  omega

/-- Nothing is stripped from a text without white space. -/
theorem strip_of_forall {s : Str} (h : ∀ c ∈ s, isSpace c = false) : strip s = s := by
  have hfront : ∀ t : Str, (∀ c ∈ t, isSpace c = false) → t.dropWhile isSpace = t := by
    intro t ht
    cases t with
    | nil => rfl
    | cons c t => simp [ht c (by simp)]
  rw [strip, lstrip, hfront s h, rstrip, hfront s.reverse (by simpa using h), List.reverse_reverse]

theorem strip_of_digits {s : Str} (h : ∀ c ∈ s, c.isDigit = true) : strip s = s :=
  strip_of_forall fun c hc => isSpace_of_isDigit (h c hc)

theorem intDigits_of_digits {s : Str} (h : ∀ c ∈ s, c.isDigit = true) (afterDigit : Bool) (acc : ℕ)
    (hs : s = [] → afterDigit = true) :
    intDigits u afterDigit acc s = some (Nat.ofDigitChars 10 s acc) := by
  induction s generalizing afterDigit acc with
  | nil => simp [intDigits, hs rfl]
  | cons c s ih =>
    have hc : c.isDigit = true := h c (by simp)
    have hne : c ≠ '_' := by
      rintro rfl
      cases hc
    rw [intDigits, if_neg hne, decimal_of_isDigit u hc, Nat.ofDigitChars_cons]
    simp only
    rw [ih (fun d hd => h d (by simp [hd])) true _ (fun _ => rfl), Nat.mul_comm]
    rfl

theorem splitSign_of_digits {s : Str} (h : ∀ c ∈ s, c.isDigit = true) :
    splitSign s = (false, s) := by
  unfold splitSign
  split
  · exact absurd (h '-' (by simp)) (by decide)
  · exact absurd (h '+' (by simp)) (by decide)
  · rfl

/-- `int()` of a plain decimal number. -/
theorem pyInt_of_digits {s : Str} (h : ∀ c ∈ s, c.isDigit = true) (hne : s ≠ [])
    (hlen : s.length ≤ maxStrDigits) : pyInt u s = .ok (Nat.ofDigitChars 10 s 0) := by
  have hcount : ¬ (s.filter fun c => (u.decimal c).isSome).length > maxStrDigits :=
    not_lt.mpr ((List.length_filter_le _ s).trans hlen)
  rw [pyInt, strip_of_digits h, splitSign_of_digits h]
  simp only [hcount, ite_false, intDigits_of_digits u h false 0 (fun hs => absurd hs hne),
    Bool.false_eq_true]

/-! ## Texts of `str.isdigit` -/

/-- A digit is neither a sign nor an underscore. -/
theorem isDigit_ne {c : Char} (h : u.isDigit c = true) : c ≠ '_' ∧ c ≠ '-' ∧ c ≠ '+' := by
  refine ⟨?_, ?_, ?_⟩ <;>
  · rintro rfl
    rw [u.isDigit_ascii _ (by decide)] at h
    cases h

theorem intDigits_isSome_iff {s : Str} (h : ∀ c ∈ s, c ≠ '_') (afterDigit : Bool) (acc : ℕ) :
    (intDigits u afterDigit acc s).isSome ↔
      (∀ c ∈ s, (u.decimal c).isSome) ∧ (s = [] → afterDigit = true) := by
  induction s generalizing afterDigit acc with
  | nil => cases afterDigit <;> simp [intDigits]
  | cons c s ih =>
    rw [intDigits, if_neg (h c List.mem_cons_self)]
    cases hc : u.decimal c with
    | none => simp [hc]
    | some digit => simp [hc, ih fun c hc => h c (List.mem_cons_of_mem _ hc)]

/-- `int()` of a text of digits reads decimal digits only, and not too many of them. -/
theorem pyInt_of_isDigit {s : Str} (h : ∀ c ∈ s, u.isDigit c = true) (hne : s ≠ [])
    (hstrip : strip s = s) :
    (∃ n, pyInt u s = .ok n) ↔ (∀ c ∈ s, (u.decimal c).isSome) ∧ s.length ≤ maxStrDigits := by
  have hsign : splitSign s = (false, s) := by
    unfold splitSign
    split
    · exact absurd rfl (isDigit_ne u (h '-' (by simp))).2.1
    · exact absurd rfl (isDigit_ne u (h '+' (by simp))).2.2
    · rfl
  have hdigits := intDigits_isSome_iff u (fun c hc => (isDigit_ne u (h c hc)).1) false 0
  have hcount (hdecimal : ∀ c ∈ s, (u.decimal c).isSome) :
      (s.filter fun c => (u.decimal c).isSome) = s := List.filter_eq_self.mpr hdecimal
  rw [pyInt, hstrip, hsign]
  dsimp only
  constructor
  · rintro ⟨n, hn⟩
    split at hn
    · cases hn
    · rename_i hshort
      cases hread : intDigits u false 0 s with
      | none =>
        rw [hread] at hn
        cases hn
      | some m =>
        have hdecimal := (hdigits.mp (by rw [hread]; rfl)).1
        rw [hcount hdecimal, not_lt] at hshort
        exact ⟨hdecimal, hshort⟩
  · rintro ⟨hdecimal, hshort⟩
    obtain ⟨m, hm⟩ := Option.isSome_iff_exists.mp
      (hdigits.mpr ⟨hdecimal, fun hnil => absurd hnil hne⟩)
    rw [hcount hdecimal, if_neg (not_lt.mpr hshort), hm]
    exact ⟨_, rfl⟩

end CwStation
