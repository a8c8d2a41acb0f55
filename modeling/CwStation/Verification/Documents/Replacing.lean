import CwStation.Model.Documents
import Mathlib.Tactic.Common

/-! # Texts with replaced parts

What `text.replace` keeps of the other URLs in a text. The URLs of two images overlap in nothing
but a slash, so one can be replaced without touching the other. -/

namespace CwStation.Documents

variable {old new pat b s t : Str}

/-! ### What a replacement does -/

/-- `t` is `s` with the matches of `old`, from left to right, turned into `new`. -/
inductive Replaced (old new : Str) : Str → Str → Prop
  | nil : Replaced old new [] []
  | keep {c : Char} {s t : Str} (h : ¬old <+: c :: s) (rest : Replaced old new s t) :
      Replaced old new (c :: s) (c :: t)
  | swap {s t : Str} (rest : Replaced old new s t) : Replaced old new (old ++ s) (new ++ t)

theorem replaceFrom_skip (skipped s : Str) :
    replaceFrom old new skipped.length (skipped ++ s) = replaceFrom old new 0 s := by
  induction skipped with
  | nil => rfl
  | cons c skipped ih => exact ih

theorem replaceFrom_match (hold : old ≠ []) (s : Str) :
    replaceFrom old new 0 (old ++ s) = new ++ replaceFrom old new 0 s := by
  obtain ⟨c, rest, rfl⟩ := List.exists_cons_of_ne_nil hold
  rw [List.cons_append, replaceFrom, ← List.cons_append, if_pos (List.prefix_append _ _),
    List.length_cons, Nat.add_sub_cancel, replaceFrom_skip]

theorem replaceFrom_keep {c : Char} (h : ¬old <+: c :: s) :
    replaceFrom old new 0 (c :: s) = c :: replaceFrom old new 0 s := by
  rw [replaceFrom, if_neg h]

theorem replaced_replaceFrom (hold : old ≠ []) (s : Str) :
    Replaced old new s (replaceFrom old new 0 s) := by
  induction hlength : s.length using Nat.strong_induction_on generalizing s with
  | _ n ih =>
    cases s with
    | nil => exact .nil
    | cons c s =>
      subst hlength
      by_cases hmatch : old <+: c :: s
      · obtain ⟨rest, hrest⟩ := hmatch
        have hshort : rest.length < (c :: s).length := by
          rw [← hrest, List.length_append]
          exact Nat.lt_add_of_pos_left (List.length_pos_iff.mpr hold)
        rw [← hrest, replaceFrom_match hold]
        exact .swap (ih _ hshort rest rfl)
      · rw [replaceFrom_keep hmatch]
        exact .keep hmatch (ih _ (Nat.lt_succ_self _) s rfl)

theorem replaced_replaceText (hold : old ≠ []) (s : Str) :
    Replaced old new s (replaceText old new s) := by
  rw [replaceText, if_neg hold]
  exact replaced_replaceFrom hold s

/-! ### Overlaps -/

/-- An end of `l` agrees with the beginning of `l'` in nothing but `b`. -/
def Clear (b l l' : Str) : Prop :=
  ∀ u r r', u <:+ l → u ++ r = l' ++ r' → u = [] ∨ u = b

theorem Clear.suffix {l l' u : Str} (h : Clear b l l') (hu : u <:+ l) : Clear b u l' :=
  fun v r r' hv => h v r r' (hv.trans hu)

/-- `l` and `l'` overlap in nothing but `b`. -/
structure Meet (b l l' : Str) : Prop where
  before : Clear b l l'
  after : Clear b l' l

/-- `b` stands at both ends of `l`. -/
structure Bordered (b l : Str) : Prop where
  left : b <+: l
  right : b <:+ l

theorem Replaced.prefix_iff (h : Replaced old new s t) (hold : Bordered b old)
    (hnew : Bordered b new) {u : Str} (hclear : Clear b u old) (hclear' : Clear b u new) :
    u <+: s ↔ u <+: t := by
  induction h generalizing u with
  | nil => rfl
  | @keep c s t hkeep rest ih =>
    cases u with
    | nil => simp
    | cons d u =>
      have hrest := ih (hclear.suffix (List.suffix_cons d u))
        (hclear'.suffix (List.suffix_cons d u))
      simp only [List.cons_prefix_cons, hrest]
  | @swap s t rest ih =>
    constructor
    · rintro ⟨r, hr⟩
      rcases hclear u r s List.suffix_rfl hr with rfl | rfl
      · exact List.nil_prefix
      · exact hnew.left.trans (List.prefix_append _ _)
    · rintro ⟨r, hr⟩
      rcases hclear' u r t List.suffix_rfl hr with rfl | rfl
      · exact List.nil_prefix
      · exact hold.left.trans (List.prefix_append _ _)

/-! ### Counting the places -/

/-- The number of places at which `pat` starts. -/
def starts (pat : Str) : Str → ℕ
  | [] => 0
  | c :: s => (if pat <+: c :: s then 1 else 0) + starts pat s

theorem infix_iff_starts (hpat : pat ≠ []) : pat <:+: s ↔ 0 < starts pat s := by
  induction s with
  | nil => simp [starts, hpat]
  | cons c s ih =>
    rw [List.infix_cons_iff, ih, starts]
    by_cases hstart : pat <+: c :: s <;> simp [hstart]

/-- `pat` starts at a border, before `s`. -/
def across (pat b s : Str) : ℕ := if b ≠ [] ∧ pat <+: b ++ s then 1 else 0

theorem starts_append {l : Str} (hclear : Clear b l pat) (hb : b <:+ l) (s : Str) :
    starts pat (l ++ s) = across pat b s + starts pat s := by
  have hpart : ∀ v, v <:+ l → starts pat (v ++ s) =
      (if b <:+ v then across pat b s else 0) + starts pat s := by
    intro v hv
    induction v with
    | nil => by_cases hnil : b = [] <;> simp [hnil, across]
    | cons c v ih =>
      rw [List.cons_append, starts, ih ((List.suffix_cons c v).trans hv), ← Nat.add_assoc,
        ← List.cons_append]
      congr 1
      by_cases hborder : c :: v = b
      · have hnot : ¬b <:+ v := fun hle => by
          have hlength := hle.length_le
          rw [← hborder, List.length_cons] at hlength
          omega
        subst hborder
        simp [hnot, across]
      · have hnone : ¬pat <+: (c :: v) ++ s := by
          rintro ⟨r, hr⟩
          rcases hclear (c :: v) s r hv hr.symm with hnil | heq
          · cases hnil
          · exact hborder heq
        have hsuffix : b <:+ c :: v ↔ b <:+ v := by
          rw [List.suffix_cons_iff]
          exact ⟨fun h => h.resolve_left fun heq => hborder heq.symm, Or.inr⟩
        simp only [hnone, hsuffix, if_false, Nat.zero_add]
  rw [hpart l List.suffix_rfl, if_pos hb]

theorem Replaced.across_eq (h : Replaced old new s t) (hold : Bordered b old)
    (hnew : Bordered b new)
    (hclear : ∀ u, b ≠ [] → pat = b ++ u → Clear b u old ∧ Clear b u new) :
    across pat b s = across pat b t := by
  rw [across, across]
  by_cases hnil : b = []
  · simp [hnil]
  · by_cases hleft : b <+: pat
    · obtain ⟨u, rfl⟩ := hleft
      obtain ⟨hbefore, hafter⟩ := hclear u hnil rfl
      simp only [List.prefix_append_right_inj, h.prefix_iff hold hnew hbefore hafter]
    · have hsame : ∀ s, pat <+: b ++ s ↔ pat <+: b := fun s =>
        ⟨fun hpat => (List.prefix_or_prefix_of_prefix hpat (List.prefix_append b s)).resolve_right
          hleft, fun hpat => hpat.trans (List.prefix_append b s)⟩
      simp only [hsame]

/-- A part that meets neither of the two starts as often as before. -/
theorem Replaced.starts_eq (h : Replaced old new s t) (hold : Bordered b old)
    (hnew : Bordered b new) (hmeet : Meet b pat old) (hmeet' : Meet b pat new) :
    starts pat s = starts pat t := by
  induction h with
  | nil => rfl
  | @keep c s t hkeep rest ih =>
    have hstart := (Replaced.keep hkeep rest).prefix_iff hold hnew hmeet.before hmeet'.before
    simp only [starts, hstart, ih]
  | @swap s t rest ih =>
    have hborder : across pat b s = across pat b t := by
      refine rest.across_eq hold hnew fun u _ hu => ?_
      exact ⟨hmeet.before.suffix (hu ▸ List.suffix_append b u),
        hmeet'.before.suffix (hu ▸ List.suffix_append b u)⟩
    rw [starts_append hmeet.after hold.right, starts_append hmeet'.after hnew.right, ih, hborder]

theorem Replaced.infix_iff (h : Replaced old new s t) (hold : Bordered b old)
    (hnew : Bordered b new) (hmeet : Meet b pat old) (hmeet' : Meet b pat new) (hpat : pat ≠ []) :
    pat <:+: s ↔ pat <:+: t := by
  rw [infix_iff_starts hpat, infix_iff_starts hpat, h.starts_eq hold hnew hmeet hmeet']

/-! ### A part that is replaced -/

/-- A part overlaps itself in nothing but its border. -/
structure Lone (b old : Str) : Prop where
  nonempty : old ≠ []
  bordered : Bordered b old
  proper : b ≠ old
  tail : Clear b old.tail old

theorem Lone.suffix_tail (h : Lone b old) : b <:+ old.tail := by
  obtain ⟨c, rest, rfl⟩ := List.exists_cons_of_ne_nil h.nonempty
  exact (List.suffix_cons_iff.mp h.bordered.right).resolve_left h.proper

/-- Where the part does not start before, it does not start afterwards. -/
theorem Replaced.not_prefix (h : Replaced old new s t) (hlone : Lone b old) (hnew : Bordered b new)
    (hmeet : Meet b old new) {c : Char} (hnot : ¬old <+: c :: s) : ¬old <+: c :: t := by
  obtain ⟨d, rest, rfl⟩ := List.exists_cons_of_ne_nil hlone.nonempty
  have hrest : rest <+: s ↔ rest <+: t := h.prefix_iff hlone.bordered hnew hlone.tail
    (hmeet.before.suffix (List.suffix_cons d rest))
  rwa [List.cons_prefix_cons, ← hrest, ← List.cons_prefix_cons]

theorem Replaced.across_lone (h : Replaced old new s t) (hlone : Lone b old)
    (hnew : Bordered b new) (hmeet : Meet b old new) : across old b s = across old b t := by
  refine h.across_eq hlone.bordered hnew fun u hb hu => ?_
  have hsuffix : u <:+ old.tail := by
    obtain ⟨c, b', rfl⟩ := List.exists_cons_of_ne_nil hb
    rw [hu]
    exact List.suffix_append b' u
  exact ⟨hlone.tail.suffix hsuffix, hmeet.before.suffix (hsuffix.trans (List.tail_suffix old))⟩

theorem starts_lone (hlone : Lone b old) (s : Str) :
    starts old (old ++ s) = 1 + (across old b s + starts old s) := by
  have htail := starts_append hlone.tail hlone.suffix_tail s
  obtain ⟨c, rest, rfl⟩ := List.exists_cons_of_ne_nil hlone.nonempty
  rw [List.tail_cons] at htail
  rw [List.cons_append, starts, ← List.cons_append, if_pos (List.prefix_append _ _), htail]

/-- The replaced part starts no more often than before, and less often where it stood. -/
theorem Replaced.starts_le (h : Replaced old new s t) (hlone : Lone b old)
    (hnew : Bordered b new) (hmeet : Meet b old new) :
    starts old t ≤ starts old s ∧ (old <:+: s → starts old t < starts old s) := by
  induction h with
  | nil => exact ⟨le_rfl, fun hin => absurd (List.infix_nil.mp hin) hlone.nonempty⟩
  | @keep c s t hkeep rest ih =>
    rw [starts, starts, if_neg hkeep, if_neg (rest.not_prefix hlone hnew hmeet hkeep),
      Nat.zero_add, Nat.zero_add]
    exact ⟨ih.1, fun hin => ih.2 ((List.infix_cons_iff.mp hin).resolve_left hkeep)⟩
  | @swap s t rest ih =>
    rw [starts_lone hlone, starts_append hmeet.after hnew.right,
      rest.across_lone hlone hnew hmeet]
    exact ⟨by omega, fun _ => by omega⟩

/-! ### The ends of a text -/

theorem Replaced.head?_eq {a : Char} (h : Replaced old new s t) (hold : [a] <+: old)
    (hnew : [a] <+: new) : s.head? = t.head? := by
  obtain ⟨x, rfl⟩ := hold
  obtain ⟨y, rfl⟩ := hnew
  cases h <;> rfl

theorem Replaced.eq_nil_iff (h : Replaced old new s t) (hold : old ≠ []) (hnew : new ≠ []) :
    [] = s ↔ [] = t := by
  cases h <;> simp [hold, hnew]

theorem Replaced.eq_singleton_iff {a d : Char} (h : Replaced old new s t) (hold : [a] <+: old)
    (hnew : [a] <+: new) (hd : d ≠ a) : [d] = s ↔ [d] = t := by
  have hnil : old ≠ [] ∧ new ≠ [] := by
    constructor <;> rintro rfl
    · exact absurd (List.prefix_nil.mp hold) (List.cons_ne_nil _ _)
    · exact absurd (List.prefix_nil.mp hnew) (List.cons_ne_nil _ _)
  cases h with
  | nil => rfl
  | keep hkeep rest =>
    rw [List.cons.injEq, List.cons.injEq, rest.eq_nil_iff hnil.1 hnil.2]
  | swap rest =>
    obtain ⟨x, rfl⟩ := hold
    obtain ⟨y, rfl⟩ := hnew
    simp [hd]

theorem suffix_append_pair {a c d : Char} {l : Str} (hd : d ≠ a) (hl : [a] <:+ l) (s : Str) :
    [c, d] <:+ l ++ s ↔ (c = a ∧ [d] = s) ∨ [c, d] <:+ s := by
  obtain ⟨x, rfl⟩ := hl
  have hsingle : [d] = s ↔ [d] = s.reverse := by
    rw [eq_comm, ← List.reverse_inj, eq_comm]
    rfl
  rw [hsingle, ← List.reverse_prefix, ← List.reverse_prefix, List.reverse_append,
    List.reverse_append]
  cases s.reverse with
  | nil => simp [hd]
  | cons e r =>
    cases r with
    | nil => simp [and_comm, eq_comm]
    | cons f r => simp

/-- The last two characters stay, unless the last is the border. -/
theorem Replaced.pair_suffix_iff {a c d : Char} (h : Replaced old new s t)
    (hold : Bordered [a] old) (hnew : Bordered [a] new) (hd : d ≠ a) :
    [c, d] <:+ s ↔ [c, d] <:+ t := by
  induction h with
  | nil => rfl
  | keep hkeep rest ih =>
    rw [List.suffix_cons_iff, List.suffix_cons_iff, ih, List.cons.injEq, List.cons.injEq,
      rest.eq_singleton_iff hold.left hnew.left hd]
  | swap rest ih =>
    rw [suffix_append_pair hd hold.right, suffix_append_pair hd hnew.right, ih,
      rest.eq_singleton_iff hold.left hnew.left hd]

/-! ### The URLs of images -/

theorem mount_eq : "/runbook/images/".toList =
    ['/', 'r', 'u', 'n', 'b', 'o', 'o', 'k', '/', 'i', 'm', 'a', 'g', 'e', 's', '/'] := by
  decide

theorem serveUrl_eq (pk : ℕ) :
    serveUrl pk = "/runbook/images/".toList ++ (Nat.toDigits 10 pk ++ ['/']) :=
  List.append_assoc _ _ _

theorem ne_of_mem_digits {pk : ℕ} {c d : Char} (hc : c ∈ Nat.toDigits 10 pk)
    (hd : d.isDigit = false) : c ≠ d := by
  rintro rfl
  rw [Nat.isDigit_of_mem_toDigits (by decide) (by decide) hc] at hd
  cases hd

theorem digits_inj {p q : ℕ} {r r' : Str}
    (h : Nat.toDigits 10 p ++ '/' :: r = Nat.toDigits 10 q ++ '/' :: r') : p = q := by
  have hslash : ∀ n, '/' ∉ Nat.toDigits 10 n := fun n hmem => ne_of_mem_digits hmem rfl rfl
  have htake : ∀ n r, (Nat.toDigits 10 n ++ '/' :: r).takeWhile (· ≠ '/') = Nat.toDigits 10 n := by
    intro n r
    rw [List.takeWhile_append_of_pos]
    · simp
    · intro c hc
      simpa using ne_of_mem_digits hc (d := '/') rfl
  have hdigits : Nat.toDigits 10 p = Nat.toDigits 10 q := by
    rw [← htake p r, h, htake q r']
  rw [← Nat.ofDigitChars_ten_toDigits (n := p), hdigits, Nat.ofDigitChars_ten_toDigits]

theorem digits_append_ne {pk : ℕ} {c : Char} {r r' : Str} (hc : c.isDigit = false) :
    Nat.toDigits 10 pk ++ r ≠ c :: r' := by
  obtain ⟨d, rest, hdigits⟩ := List.exists_cons_of_ne_nil (Nat.toDigits_ne_nil (b := 10) (n := pk))
  intro h
  rw [hdigits, List.cons_append, List.cons.injEq] at h
  exact ne_of_mem_digits (hdigits ▸ List.mem_cons_self) hc h.1

theorem suffix_digits {pk : ℕ} {u : Str} (h : u <:+ Nat.toDigits 10 pk ++ ['/'])
    (hhead : ∀ c ∈ u.head?, c = '/') : u = [] ∨ u = ['/'] := by
  generalize hdigits : Nat.toDigits 10 pk = digits at h
  have hnone : ∀ c ∈ digits, c ≠ '/' := fun c hc => ne_of_mem_digits (hdigits ▸ hc) rfl
  clear hdigits
  induction digits with
  | nil =>
    rcases List.suffix_cons_iff.mp h with rfl | h
    · exact .inr rfl
    · exact .inl (List.suffix_nil.mp h)
  | cons d digits ih =>
    rcases List.suffix_cons_iff.mp h with rfl | h
    · exact absurd (hhead d rfl) (hnone d List.mem_cons_self)
    · exact ih h fun c hc => hnone c (List.mem_cons_of_mem d hc)

/-- An end of one URL is the beginning of another only if it is a slash, or they are the same. -/
theorem serveUrl_overlap {p q : ℕ} {u r r' : Str} (hu : u <:+ serveUrl p)
    (h : u ++ r = serveUrl q ++ r') : u = [] ∨ u = ['/'] ∨ (u = serveUrl p ∧ p = q) := by
  rw [serveUrl_eq, mount_eq] at hu h ⊢
  simp only [List.cons_append, List.nil_append] at hu h ⊢
  simp only [List.suffix_cons_iff] at hu
  rcases hu with rfl | rfl | rfl | rfl | rfl | rfl | rfl | rfl | rfl | rfl | rfl | rfl | rfl | rfl |
    rfl | rfl | hu
  · have hkey : Nat.toDigits 10 p ++ '/' :: r = Nat.toDigits 10 q ++ '/' :: r' := by
      simpa using h
    exact .inr (.inr ⟨rfl, digits_inj hkey⟩)
  -- the ends from `runbook/` on begin with another letter
  all_goals try (exfalso; simp at h; done)
  · rw [List.cons_append, List.cons.injEq, List.append_assoc] at h
    exact absurd h.2 (digits_append_ne rfl)
  · have hhead : ∀ c ∈ u.head?, c = '/' := by
      intro c hc
      obtain ⟨rest, rfl⟩ := List.head?_eq_some_iff.mp hc
      rw [List.cons_append, List.cons.injEq] at h
      exact h.1
    exact (suffix_digits hu hhead).imp_right Or.inl

theorem serveUrl_ends (pk : ℕ) : ∃ middle, serveUrl pk = '/' :: (middle ++ ['/']) ∧ middle ≠ [] := by
  refine ⟨("/runbook/images/".toList).tail ++ Nat.toDigits 10 pk, ?_, ?_⟩
  · rw [serveUrl_eq, mount_eq]
    simp only [List.tail_cons, List.cons_append, List.nil_append]
  · rw [mount_eq]
    exact List.cons_ne_nil _ _

theorem bordered_serveUrl (pk : ℕ) : Bordered ['/'] (serveUrl pk) := by
  obtain ⟨middle, heq, -⟩ := serveUrl_ends pk
  rw [heq]
  exact ⟨⟨middle ++ ['/'], rfl⟩, ⟨'/' :: middle, rfl⟩⟩

theorem meet_serveUrl {p q : ℕ} (h : p ≠ q) : Meet ['/'] (serveUrl p) (serveUrl q) where
  before u r r' hu heq := by
    rcases serveUrl_overlap hu heq with hnil | hborder | ⟨-, hsame⟩
    · exact .inl hnil
    · exact .inr hborder
    · exact absurd hsame h
  after u r r' hu heq := by
    rcases serveUrl_overlap hu heq with hnil | hborder | ⟨-, hsame⟩
    · exact .inl hnil
    · exact .inr hborder
    · exact absurd hsame.symm h

theorem lone_serveUrl (pk : ℕ) : Lone ['/'] (serveUrl pk) := by
  obtain ⟨middle, heq, hne⟩ := serveUrl_ends pk
  refine ⟨?_, bordered_serveUrl pk, ?_, ?_⟩
  · rw [heq]
    exact List.cons_ne_nil _ _
  · rw [heq]
    simp [hne]
  · intro u r r' hu h
    rcases serveUrl_overlap (hu.trans (List.tail_suffix _)) h with hnil | hborder | ⟨hwhole, -⟩
    · exact .inl hnil
    · exact .inr hborder
    · have hlength := hu.length_le
      rw [hwhole, heq, List.tail_cons, List.length_cons] at hlength
      omega

/-- The URL of one image can be replaced without touching that of another. -/
theorem infix_replaceText_serveUrl {image copy other : ℕ} (himage : other ≠ image)
    (hcopy : other ≠ copy) (body : Str) :
    serveUrl other <:+: replaceText (serveUrl image) (serveUrl copy) body ↔
      serveUrl other <:+: body :=
  ((replaced_replaceText (lone_serveUrl image).nonempty body).infix_iff (bordered_serveUrl image)
    (bordered_serveUrl copy) (meet_serveUrl himage) (meet_serveUrl hcopy)
    (lone_serveUrl other).nonempty).symm

end CwStation.Documents
