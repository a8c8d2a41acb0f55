import CwStation.Model.Adif
import CwStation.Verification.Python.Strings

/-! # Tags and ends of records

Where the two searches of `parse_adif` stop in a text as `_adif_field` writes it, and what
holds of whatever they find. -/

namespace CwStation.Adif

open Pattern

variable (u : Unicode)

/-! ## Characters -/

theorem isWord_colon : u.isWord ':' = false := by
  rw [u.isWord_ascii ':' (by decide)]
  decide

theorem isWord_gt : u.isWord '>' = false := by
  rw [u.isWord_ascii '>' (by decide)]
  decide

theorem isWord_letter {c d : Char} (hc : c ∈ ['e', 'o', 'r']) (h : d = c ∨ d = c.toUpper) :
    u.isWord d = true := by
  have hd : d ∈ ['e', 'E', 'o', 'O', 'r', 'R'] := by
    simp only [List.mem_cons, List.not_mem_nil, or_false] at hc ⊢
    rcases hc with rfl | rfl | rfl <;> rcases h with rfl | rfl <;> simp
  simp only [List.mem_cons, List.not_mem_nil, or_false] at hd
  rw [u.isWord_ascii d (by rcases hd with rfl | rfl | rfl | rfl | rfl | rfl <;> decide)]
  rcases hd with rfl | rfl | rfl | rfl | rfl | rfl <;> decide

def isDecimal (c : Char) : Bool := (u.decimal c).isSome

theorem isDecimal_gt : isDecimal u '>' = false := by
  rw [isDecimal, u.decimal_ascii '>' (by decide)]
  decide

theorem isDecimal_colon : isDecimal u ':' = false := by
  rw [isDecimal, u.decimal_ascii ':' (by decide)]
  decide

theorem isDecimal_decimalText (n : ℕ) : ∀ c ∈ decimalText n, isDecimal u c = true := by
  intro c hc
  have hdigit : c.isDigit = true := Nat.isDigit_of_mem_toDigits (by decide) (by decide) hc
  rw [isDecimal, decimal_of_isDigit u hdigit]
  rfl

/-! ## Matches -/

/-- The markup of a field. -/
def tagText (name : Str) (length : ℕ) : Str := '<' :: (name ++ ':' :: (decimalText length ++ ['>']))

theorem adifField_eq (name value : Str) : adifField name value = tagText name value.length ++ value := by
  simp [adifField, tagText]

/-- A character that `letter c` accepts. -/
def IsLetter (c d : Char) : Prop := d = c ∨ d = c.toUpper

theorem mem_ways_markerRe {last : Char} {prev : Option Char} {s : Str} {m : Match Char}
    (h : m ∈ ways (markerRe last) prev s) :
    ∃ a b c, IsLetter 'e' a ∧ IsLetter 'o' b ∧ IsLetter last c ∧
      s = '<' :: a :: b :: c :: '>' :: m.rest ∧ m.text = ['<', a, b, c, '>'] := by
  simp only [markerRe, letter, exactly, mem_ways_seq, mem_ways_one, beq_iff_eq,
    Bool.or_eq_true] at h
  obtain ⟨m₁, ⟨_, rfl, hs₁, ht₁, -⟩, m₂, ⟨m₃, ⟨a, ha, hs₃, ht₃, -⟩, m₄, ⟨m₅, ⟨b, hb, hs₅, ht₅, -⟩,
    m₆, ⟨m₇, ⟨c, hc, hs₇, ht₇, -⟩, m₈, ⟨_, rfl, hs₈, ht₈, -⟩, rfl⟩, rfl⟩, rfl⟩, rfl⟩ := h
  refine ⟨a, b, c, ha, hb, hc, ?_, ?_⟩
  · rw [hs₁, hs₃, hs₅, hs₇, hs₈]
  · simp [ht₁, ht₃, ht₅, ht₇, ht₈]

theorem mem_ways_eorRe {prev : Option Char} {s : Str} {m : Match Char}
    (h : m ∈ ways eorRe prev s) :
    ∃ letters, (∀ d ∈ letters, u.isWord d = true) ∧ s = '<' :: (letters ++ '>' :: m.rest) ∧
      m.text = '<' :: (letters ++ ['>']) := by
  obtain ⟨a, b, c, ha, hb, hc, hs, htext⟩ := mem_ways_markerRe h
  refine ⟨[a, b, c], ?_, hs, htext⟩
  intro d hd
  simp only [List.mem_cons, List.not_mem_nil, or_false] at hd
  rcases hd with rfl | rfl | rfl
  · exact isWord_letter u (c := 'e') (by simp) ha
  · exact isWord_letter u (c := 'o') (by simp) hb
  · exact isWord_letter u (c := 'r') (by simp) hc

/-- A tag: a name, a length, and an optional part up to the closing bracket. -/
structure IsTag (name digits extra : Str) : Prop where
  name_ne_nil : name ≠ []
  isWord : ∀ c ∈ name, u.isWord c = true
  digits_ne_nil : digits ≠ []
  isDecimal : ∀ c ∈ digits, isDecimal u c = true
  extra : extra = [] ∨ ∃ e, extra = ':' :: e ∧ ∀ c ∈ e, c ≠ '>'

theorem of_mem_ways_tagRe {prev : Option Char} {s : Str} {m : Match Char}
    (h : m ∈ ways (tagRe u) prev s) : ∃ name digits extra, IsTag u name digits extra ∧
      s = '<' :: (name ++ ':' :: (digits ++ (extra ++ '>' :: m.rest))) ∧
      m.text = '<' :: (name ++ ':' :: (digits ++ (extra ++ ['>']))) ∧ m.groups = [name, digits] := by
  simp only [tagRe, exactly, mem_ways_seq, mem_ways_group, mem_ways_opt, mem_ways_one,
    mem_ways_many, beq_iff_eq] at h
  obtain ⟨m₁, ⟨_, rfl, hs₁, ht₁, hg₁⟩, m₂, ⟨_, ⟨m₃, ⟨hs₃, hword, hlen, -, hg₃⟩, rfl⟩,
    m₄, ⟨m₅, ⟨_, rfl, hs₅, ht₅, hg₅⟩, m₆, ⟨_, ⟨m₇, ⟨hs₇, hdec, hlen', -, hg₇⟩, rfl⟩,
    m₈, ⟨m₉, hm₉, m₁₀, ⟨_, rfl, hs₁₀, ht₁₀, hg₁₀⟩, rfl⟩, rfl⟩, rfl⟩, rfl⟩, rfl⟩ := h
  have hextra : ∃ extra, (extra = [] ∨ ∃ e, extra = ':' :: e ∧ ∀ c ∈ e, c ≠ '>') ∧
      m₇.rest = extra ++ m₉.rest ∧ m₉.text = extra ∧ m₉.groups = [] := by
    rcases hm₉ with ⟨x, ⟨_, rfl, hx, htx, hgx⟩, y, ⟨hy, hall, -, -, hgy⟩, rfl⟩ | rfl
    · refine ⟨':' :: y.text, .inr ⟨y.text, rfl, fun c hc => by simpa using hall c hc⟩, ?_, ?_, ?_⟩
      · rw [hx, ← hy]
        rfl
      · simp [htx]
      · simp [hgx, hgy]
    · exact ⟨[], .inl rfl, rfl, rfl, rfl⟩
  obtain ⟨extra, hok, hrest, htext, hgroups⟩ := hextra
  refine ⟨m₃.text, m₇.text, extra, ⟨?_, hword, ?_, hdec, hok⟩, ?_, ?_, ?_⟩
  · exact List.ne_nil_of_length_pos hlen
  · exact List.ne_nil_of_length_pos hlen'
  · rw [hs₁, ← hs₃, hs₅, ← hs₇, hrest, hs₁₀]
  · simp [ht₁, ht₅, ht₁₀, htext]
  · simp [hg₁, hg₃, hg₅, hg₇, hg₁₀, hgroups]

variable {u} in
theorem IsTag.word_stop {name digits extra rest : Str} (h : IsTag u name digits extra)
    {front tail : Str} {stop : Char} (hfront : ∀ c ∈ front, u.isWord c = true)
    (hstop : u.isWord stop = false) (heq : name ++ ':' :: rest = front ++ stop :: tail) :
    name = front ∧ ':' = stop ∧ rest = tail :=
  append_cons_inj h.isWord hfront (isWord_colon u) hstop heq

/-- The tag of a field is matched as it was written. -/
theorem matchAt_tagText {name : Str} (hne : name ≠ []) (hword : ∀ c ∈ name, u.isWord c = true)
    (length : ℕ) (prev : Option Char) (rest : Str) :
    matchAt (tagRe u) prev (tagText name length ++ rest) =
      some ⟨tagText name length, rest, [name, decimalText length]⟩ := by
  have hdec := isDecimal_decimalText u length
  apply matchAt_of_unique
  · simp only [tagRe, exactly, mem_ways_seq, mem_ways_group, mem_ways_opt, mem_ways_one,
      mem_ways_many, beq_iff_eq]
    have hdigits : decimalText length ≠ [] := Nat.toDigits_ne_nil
    refine ⟨⟨['<'], name ++ ':' :: (decimalText length ++ '>' :: rest), []⟩,
      ⟨'<', rfl, by simp [tagText], rfl, rfl⟩, _,
      ⟨_, ⟨⟨name, ':' :: (decimalText length ++ '>' :: rest), []⟩,
        ⟨rfl, hword, List.length_pos_iff.mpr hne, by simp, rfl⟩, rfl⟩, _,
      ⟨⟨[':'], decimalText length ++ '>' :: rest, []⟩, ⟨':', rfl, rfl, rfl, rfl⟩, _,
      ⟨_, ⟨⟨decimalText length, '>' :: rest, []⟩,
        ⟨rfl, hdec, List.length_pos_iff.mpr hdigits, by simp, rfl⟩, rfl⟩, _,
      ⟨⟨[], '>' :: rest, []⟩, .inr rfl, ⟨['>'], rest, []⟩, ⟨'>', rfl, rfl, rfl, rfl⟩, rfl⟩,
        rfl⟩, rfl⟩, rfl⟩, ?_⟩
    simp [tagText]
  · intro m hm
    obtain ⟨name', digits', extra', htag, hs, htext, hgroups⟩ := of_mem_ways_tagRe u hm
    simp only [tagText, List.cons_append, List.append_assoc, List.cons.injEq, true_and,
      List.nil_append] at hs
    obtain ⟨rfl, -, hlen⟩ := htag.word_stop hword (isWord_colon u) hs.symm
    -- the optional part would have to start with a colon
    have hextra : extra' = [] ∧ digits' = decimalText length ∧ m.rest = rest := by
      rcases htag.extra with rfl | ⟨e, rfl, -⟩
      · obtain ⟨hd, -, hr⟩ := append_cons_inj htag.isDecimal hdec (isDecimal_gt u)
          (isDecimal_gt u) hlen
        exact ⟨rfl, hd, hr⟩
      · obtain ⟨-, hcolon, -⟩ := append_cons_inj htag.isDecimal hdec (isDecimal_colon u)
          (isDecimal_gt u) hlen
        exact absurd hcolon (by decide)
    obtain ⟨rfl, rfl, hrest⟩ := hextra
    obtain ⟨text, rest', groups⟩ := m
    simp only at htext hgroups hrest
    rw [htext, hgroups, hrest]
    rfl

/-- The start of a tag is no end of a record. -/
theorem matchAt_eorRe_tagText {name : Str} (hword : ∀ c ∈ name, u.isWord c = true) (length : ℕ)
    (prev : Option Char) (rest : Str) :
    matchAt eorRe prev (tagText name length ++ rest) = none := by
  rw [matchAt_eq_none]
  intro m hm
  obtain ⟨letters, hletters, hs, -⟩ := mem_ways_eorRe u hm
  simp only [tagText, List.cons_append, List.cons.injEq, true_and, List.append_assoc] at hs
  obtain ⟨-, hcolon, -⟩ := append_cons_inj hword hletters (isWord_colon u) (isWord_gt u) hs
  exact absurd hcolon (by decide)

/-- An end of a record is no tag. -/
theorem matchAt_tagRe_eor (prev : Option Char) (rest : Str) :
    matchAt (tagRe u) prev ("<EOR>".toList ++ rest) = none := by
  rw [matchAt_eq_none]
  intro m hm
  obtain ⟨name, digits, extra, htag, hs, -⟩ := of_mem_ways_tagRe u hm
  have heq : ['E', 'O', 'R'] ++ '>' :: rest = name ++ ':' :: (digits ++ (extra ++ '>' :: m.rest)) := by
    simpa using hs
  have hletters : ∀ c ∈ ['E', 'O', 'R'], u.isWord c = true := by
    intro c hc
    simp only [List.mem_cons, List.not_mem_nil, or_false] at hc
    rcases hc with rfl | rfl | rfl
    · exact isWord_letter u (c := 'e') (by simp) (.inr rfl)
    · exact isWord_letter u (c := 'o') (by simp) (.inr rfl)
    · exact isWord_letter u (c := 'r') (by simp) (.inr rfl)
  obtain ⟨-, hcolon, -⟩ := htag.word_stop hletters (isWord_gt u) heq.symm
  exact absurd hcolon (by decide)

theorem matchAt_eorRe (prev : Option Char) (rest : Str) :
    matchAt eorRe prev ("<EOR>".toList ++ rest) = some ⟨"<EOR>".toList, rest, []⟩ := by
  simp [matchAt, eorRe, markerRe, letter, exactly, ways]

/-! ## The two searches -/

/-- Text without an opening bracket. -/
def Plain (s : Str) : Prop := ∀ c ∈ s, c ≠ '<'

theorem Plain.not_bracket {s : Str} (h : Plain s) : ∀ c ∈ s, (c == '<') = false := by
  intro c hc
  simpa using h c hc

theorem search_of_bracket {q : Pat Char} {sep s : Str} {m : Match Char} (hsep : Plain sep)
    (hm : ∀ prev, matchAt (.seq (exactly '<') q) prev s = some m) (prev : Option Char) :
    search (.seq (exactly '<') q) prev (sep ++ s) = some (sep, m) := by
  rw [exactly, search_skip hsep.not_bracket, ← exactly, search_of_matchAt (hm _)]
  simp

/-- A search that fails at the bracket stops behind it, if at all. -/
theorem length_lt_of_search {q : Pat Char} {sep s : Str} (hsep : Plain sep) {c : Char}
    (hm : ∀ prev, matchAt (.seq (exactly '<') q) prev (c :: s) = none) {prev : Option Char}
    {r : Str × Match Char} (h : search (.seq (exactly '<') q) prev (sep ++ c :: s) = some r) :
    sep.length < r.1.length := by
  rw [exactly, search_skip hsep.not_bracket, ← exactly, search, hm] at h
  simp only [Option.map_map, Option.map_eq_some_iff] at h
  obtain ⟨r', -, rfl⟩ := h
  simp

/-- The next markup is the tag of a field. -/
theorem findMark_field {body sep name rest : Str} {pos length : ℕ} (hsep : Plain sep)
    (hne : name ≠ []) (hword : ∀ c ∈ name, u.isWord c = true)
    (hbody : body.drop pos = sep ++ (tagText name length ++ rest)) :
    findMark u body pos = some (.tag (pos + sep.length)
      (pos + sep.length + (tagText name length).length) name (decimalText length)) := by
  have htag : search (tagRe u) none (body.drop pos) =
      some (sep, ⟨tagText name length, rest, [name, decimalText length]⟩) := by
    rw [hbody]
    exact search_of_bracket hsep (fun prev => matchAt_tagText u hne hword length prev rest) none
  have heor : ∀ r, search eorRe none (body.drop pos) = some r → sep.length < r.1.length := by
    intro r hr
    rw [hbody] at hr
    exact length_lt_of_search hsep
      (fun prev => matchAt_eorRe_tagText u hword length prev rest) hr
  unfold findMark
  rw [htag]
  cases h : search eorRe none (body.drop pos) with
  | none => rfl
  | some r =>
    have hlt := heor r h
    have hnot : ¬ r.1.length < sep.length := by omega
    simp only [hnot, ite_false]
    rfl

/-- The next markup is the end of a record. -/
theorem findMark_eor {body sep rest : Str} {pos : ℕ} (hsep : Plain sep)
    (hbody : body.drop pos = sep ++ ("<EOR>".toList ++ rest)) :
    findMark u body pos = some (.eor (pos + sep.length) (pos + sep.length + 5)) := by
  have heor : search eorRe none (body.drop pos) = some (sep, ⟨"<EOR>".toList, rest, []⟩) := by
    rw [hbody]
    exact search_of_bracket hsep (fun prev => matchAt_eorRe prev rest) none
  have htag : ∀ r, search (tagRe u) none (body.drop pos) = some r → sep.length < r.1.length := by
    intro r hr
    rw [hbody] at hr
    exact length_lt_of_search hsep (fun prev => matchAt_tagRe_eor u prev rest) hr
  unfold findMark
  rw [heor]
  cases h : search (tagRe u) none (body.drop pos) with
  | none => rfl
  | some r =>
    have hlt : sep.length < r.1.length := htag r h
    simp only [hlt, ite_true]
    rfl

theorem findMark_plain {body : Str} {pos : ℕ} (h : Plain (body.drop pos)) :
    findMark u body pos = none := by
  have htag : search (tagRe u) none (body.drop pos) = none := search_eq_none h.not_bracket
  have heor : search eorRe none (body.drop pos) = none := search_eq_none h.not_bracket
  simp only [findMark, htag, heor]

/-! ## Whatever is found -/

def Mark.start : Mark → ℕ
  | .eor start _ => start
  | .tag start _ _ _ => start

def Mark.stop : Mark → ℕ
  | .eor _ stop => stop
  | .tag _ stop _ _ => stop

/-- Bounds of a mark in a text searched from `pos`. -/
def Mark.Within (body : Str) (pos : ℕ) (mark : Mark) : Prop :=
  pos ≤ mark.start ∧ mark.start < mark.stop ∧ mark.stop ≤ body.length

theorem search_bounds {p : Pat Char} (hp : ∀ prev s m, m ∈ ways p prev s → m.text ≠ [])
    {body : Str} {pos : ℕ} {r : Str × Match Char} (h : search p none (body.drop pos) = some r) :
    0 < r.2.text.length ∧ pos + r.1.length + r.2.text.length ≤ body.length := by
  obtain ⟨rest, hs, hmem⟩ := exists_of_search h
  have hpos : 0 < r.2.text.length := List.length_pos_iff.mpr (hp _ _ _ hmem)
  have hlen := congrArg List.length hs
  rw [← ways_append hmem, List.length_drop] at hlen
  simp only [List.length_append] at hlen
  exact ⟨hpos, by omega⟩

theorem tagMark_within {body : Str} {pos : ℕ} {r : Str × Match Char}
    (h : search (tagRe u) none (body.drop pos) = some r) : (tagMark pos r).Within body pos := by
  have hne : ∀ prev s m, m ∈ ways (tagRe u) prev s → m.text ≠ [] := by
    intro prev s m hm
    obtain ⟨_, _, _, -, -, htext, -⟩ := of_mem_ways_tagRe u hm
    simp [htext]
  have hbounds := search_bounds hne h
  simp only [Mark.Within, tagMark, Mark.start, Mark.stop]
  omega

theorem eorMark_within {body : Str} {pos : ℕ} {r : Str × Match Char}
    (h : search eorRe none (body.drop pos) = some r) : (eorMark pos r).Within body pos := by
  have hne : ∀ prev s m, m ∈ ways eorRe prev s → m.text ≠ [] := by
    intro prev s m hm
    obtain ⟨_, -, -, htext⟩ := mem_ways_eorRe .ascii hm
    simp [htext]
  have hbounds := search_bounds hne h
  simp only [Mark.Within, eorMark, Mark.start, Mark.stop]
  omega

/-- The markup found lies in the text, not before the position searched from. -/
theorem findMark_within {body : Str} {pos : ℕ} {mark : Mark} (h : findMark u body pos = some mark) :
    mark.Within body pos := by
  unfold findMark at h
  split at h
  · cases h
  · rename_i heor
    obtain rfl := Option.some.inj h
    exact eorMark_within heor
  · rename_i htag _
    obtain rfl := Option.some.inj h
    exact tagMark_within u htag
  · rename_i htag heor
    obtain rfl := Option.some.inj h
    split
    · exact eorMark_within heor
    · exact tagMark_within u htag

end CwStation.Adif
