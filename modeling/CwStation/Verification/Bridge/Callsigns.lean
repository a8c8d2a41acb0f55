import CwStation.Model.Bridge
import CwStation.Verification.Python.Strings

/-! # Callsigns found in a text that grows

A callsign is a whole word, so what is found in completed words stays found when more
words follow. -/

namespace CwStation.Bridge

open Pattern

variable {u : Unicode}

/-! ## The shape of a call -/

/-- One or two capitals, a digit, one to four capitals. -/
def IsCall (u : Unicode) (call : Str) : Prop :=
  ∃ p d q, call = p ++ d :: q ∧ (∀ c ∈ p, c.isUpper = true) ∧ 1 ≤ p.length ∧ p.length ≤ 2 ∧
    isDecimal u d = true ∧ (∀ c ∈ q, c.isUpper = true) ∧ 1 ≤ q.length ∧ q.length ≤ 4

theorem isWord_of_isUpper {c : Char} (h : c.isUpper = true) : u.isWord c = true := by
  have hascii : c.toNat < 128 := by
    have hrange := isUpper_iff.mp h
    omega
  rw [u.isWord_ascii c hascii]
  simp [Char.isAlphanum, isAlpha_eq, h]

theorem isWord_space : u.isWord ' ' = false := u.isWord_space ' ' (by decide)

theorem IsCall.isWord {call : Str} (h : IsCall u call) : ∀ c ∈ call, u.isWord c = true := by
  obtain ⟨p, d, q, rfl, hp, -, -, hd, hq, -⟩ := h
  intro c hc
  rcases List.mem_append.mp hc with hc | hc
  · exact isWord_of_isUpper (hp c hc)
  · rcases List.mem_cons.mp hc with rfl | hc
    · exact u.isWord_decimal c hd
    · exact isWord_of_isUpper (hq c hc)

theorem IsCall.ne_nil {call : Str} (h : IsCall u call) : call ≠ [] := by
  obtain ⟨p, d, q, rfl, -⟩ := h
  simp

/-- A word character is no white space. -/
theorem isSpace_of_isWord {c : Char} (h : u.isWord c = true) : isSpace c = false := by
  cases hc : isSpace c with
  | false => rfl
  | true => rw [u.isWord_space c hc] at h; cases h

theorem mem_ways_callShape {prev : Option Char} {s : Str} {m : Match Char} :
    m ∈ ways (callShape u) prev s ↔ m.text ++ m.rest = s ∧ IsCall u m.text ∧ m.groups = [] := by
  constructor
  · intro h
    refine ⟨ways_append h, ?_⟩
    obtain ⟨x, hx, y, hy, rfl⟩ := mem_ways_seq.mp h
    obtain ⟨y₁, hy₁, y₂, hy₂, rfl⟩ := mem_ways_seq.mp hy
    obtain ⟨-, hp, hlo, hhi, hgx⟩ := mem_ways_many.mp hx
    obtain ⟨d, hd, -, hdtext, hgd⟩ := mem_ways_one.mp hy₁
    obtain ⟨-, hq, hlo', hhi', hgy⟩ := mem_ways_many.mp hy₂
    refine ⟨⟨x.text, d, y₂.text, ?_, hp, hlo, hhi 2 rfl, hd, hq, hlo', hhi' 4 rfl⟩, ?_⟩
    · simp [hdtext]
    · simp [hgx, hgd, hgy]
  · rintro ⟨rfl, ⟨p, d, q, htext, hp, hlo, hhi, hd, hq, hlo', hhi'⟩, hgroups⟩
    obtain ⟨text, rest, groups⟩ := m
    dsimp only at htext hgroups ⊢
    subst htext hgroups
    refine mem_ways_seq.mpr ⟨⟨p, d :: q ++ rest, []⟩, ?_, ⟨d :: q, rest, []⟩, ?_, rfl⟩
    · exact mem_ways_many.mpr ⟨by simp, hp, hlo, by rintro k ⟨⟩; exact hhi, rfl⟩
    · refine mem_ways_seq.mpr ⟨⟨[d], q ++ rest, []⟩, ?_, ⟨q, rest, []⟩, ?_, rfl⟩
      · exact mem_ways_one.mpr ⟨d, hd, rfl, rfl, rfl⟩
      · exact mem_ways_many.mpr ⟨rfl, hq, hlo', by rintro k ⟨⟩; exact hhi', rfl⟩

/-! ## Tokens -/

theorem callsignRe_avoids : Avoids ' ' (callsignRe u) := by
  have hdecimal : isDecimal u ' ' = false := by
    rw [isDecimal, u.decimal_ascii ' ' (by decide)]
    rfl
  have hupper : Char.isUpper ' ' = false := by decide
  exact ⟨isWord_space, ⟨hupper, hdecimal, hupper⟩, isWord_space⟩

theorem ways_callsignRe_nil (prev : Option Char) : ways (callsignRe u) prev [] = [] := by
  rw [List.eq_nil_iff_forall_not_mem]
  intro m hm
  obtain ⟨x, hx, y, hy, rfl⟩ := mem_ways_seq.mp hm
  obtain ⟨y₁, hy₁, y₂, -, rfl⟩ := mem_ways_seq.mp hy
  obtain ⟨z, hz, rfl⟩ := mem_ways_group.mp hy₁
  obtain ⟨hsplit, hcall, -⟩ := mem_ways_callShape.mp hz
  obtain ⟨-, rfl⟩ := mem_ways_boundary.mp hx
  exact hcall.ne_nil (List.append_eq_nil_iff.mp hsplit).1

/-- The tokens of completed words are tokens of the longer text, in front of the others. -/
theorem tokens_append_space (s t : Str) :
    ∃ more, findall (callsignRe u) (s ++ ' ' :: t) = findall (callsignRe u) s ++ more ∧
      (t = [] → more = []) := by
  refine ⟨_, findall_append_sep callsignRe_avoids ways_callsignRe_nil s t, ?_⟩
  rintro rfl
  rfl

/-! ## Calls after `DE` -/

/-- `text` is `DE`, white space and a call, and `rest` does not continue the call. -/
structure DeCall (u : Unicode) (s sp call rest : Str) : Prop where
  split : s = 'D' :: 'E' :: (sp ++ (call ++ rest))
  sp_ne : sp ≠ []
  sp_space : ∀ c ∈ sp, isSpace c = true
  isCall : IsCall u call
  ends : rest.head?.any u.isWord = false

theorem mem_ways_deCallRe {prev : Option Char} {s : Str} {m : Match Char} :
    m ∈ ways (deCallRe u) prev s ↔ prev.any u.isWord = false ∧ ∃ sp call rest,
      DeCall u s sp call rest ∧ m = ⟨'D' :: 'E' :: (sp ++ call), rest, [call]⟩ := by
  have hD : u.isWord 'D' = true := isWord_of_isUpper (by decide)
  constructor
  · intro h
    obtain ⟨b, hb, m₁, hm₁, rfl⟩ := mem_ways_seq.mp h
    obtain ⟨d, hd, m₂, hm₂, rfl⟩ := mem_ways_seq.mp hm₁
    obtain ⟨e, he, m₃, hm₃, rfl⟩ := mem_ways_seq.mp hm₂
    obtain ⟨w, hw, m₄, hm₄, rfl⟩ := mem_ways_seq.mp hm₃
    obtain ⟨g, hg, z, hz, rfl⟩ := mem_ways_seq.mp hm₄
    obtain ⟨hbound, rfl⟩ := mem_ways_boundary.mp hb
    obtain ⟨dc, hdc, hds, hdt, hdg⟩ := mem_ways_one.mp hd
    obtain ⟨ec, hec, hes, het, heg⟩ := mem_ways_one.mp he
    obtain ⟨hws, hwall, hwlo, -, hwg⟩ := mem_ways_many.mp hw
    obtain ⟨c, hc, rfl⟩ := mem_ways_group.mp hg
    obtain ⟨hcs, hcall, hcg⟩ := mem_ways_callShape.mp hc
    obtain ⟨hend, rfl⟩ := mem_ways_boundary.mp hz
    obtain rfl : dc = 'D' := by simpa using hdc
    obtain rfl : ec = 'E' := by simpa using hec
    dsimp only at hds hend
    have hprev : prev.any u.isWord = false := by
      rw [hds] at hbound
      simpa [hD] using hbound
    have hrest : c.rest.head?.any u.isWord = false := by
      rw [after_any_of_forall hcall.ne_nil hcall.isWord] at hend
      simpa using hend
    refine ⟨hprev, w.text, c.text, c.rest, ⟨?_, ?_, hwall, hcall, hrest⟩, ?_⟩
    · rw [hds, hes, ← hws, ← hcs]
    · exact List.ne_nil_of_length_pos hwlo
    · simp [hdt, het, hdg, heg, hwg, hcg]
  · rintro ⟨hprev, sp, call, rest, ⟨rfl, hne, hsp, hcall, hends⟩, rfl⟩
    refine mem_ways_seq.mpr ⟨⟨[], _, []⟩, mem_ways_boundary.mpr ⟨?_, rfl⟩,
      ⟨'D' :: 'E' :: (sp ++ call), rest, [call]⟩, ?_, rfl⟩
    · simp [hprev, hD]
    refine mem_ways_seq.mpr ⟨⟨['D'], _, []⟩, mem_ways_one.mpr ⟨'D', rfl, rfl, rfl, rfl⟩,
      ⟨'E' :: (sp ++ call), rest, [call]⟩, ?_, rfl⟩
    refine mem_ways_seq.mpr ⟨⟨['E'], _, []⟩, mem_ways_one.mpr ⟨'E', rfl, rfl, rfl, rfl⟩,
      ⟨sp ++ call, rest, [call]⟩, ?_, rfl⟩
    refine mem_ways_seq.mpr ⟨⟨sp, call ++ rest, []⟩, mem_ways_many.mpr ⟨rfl, hsp,
      List.length_pos_iff.mpr hne, by simp, rfl⟩, ⟨call, rest, [call]⟩, ?_, rfl⟩
    refine mem_ways_seq.mpr ⟨⟨call, rest, [call]⟩, mem_ways_group.mpr ⟨⟨call, rest, []⟩,
      mem_ways_callShape.mpr ⟨rfl, hcall, rfl⟩, rfl⟩, ⟨[], rest, []⟩,
      mem_ways_boundary.mpr ⟨?_, rfl⟩, by simp⟩
    rw [after_any_of_forall hcall.ne_nil hcall.isWord, hends]
    simp

/-- A text has at most one reading as `DE` and a call. -/
theorem DeCall.unique {s sp call rest sp' call' rest' : Str} (h : DeCall u s sp call rest)
    (h' : DeCall u s sp' call' rest') : call' = call := by
  have hhead : ∀ {call rest : Str}, IsCall u call → (call ++ rest).head?.any isSpace = false := by
    intro call rest hcall
    cases call with
    | nil => exact absurd rfl hcall.ne_nil
    | cons c call => exact isSpace_of_isWord (hcall.isWord c (by simp))
  have hsplit : sp ++ (call ++ rest) = sp' ++ (call' ++ rest') := by
    have := h.split.symm.trans h'.split
    simpa using this
  have hsp : sp = sp' := by
    have := congrArg (List.takeWhile isSpace) hsplit
    rwa [takeWhile_append_of_head h.sp_space (hhead h.isCall),
      takeWhile_append_of_head h'.sp_space (hhead h'.isCall)] at this
  rw [hsp, List.append_cancel_left_eq] at hsplit
  have := congrArg (List.takeWhile u.isWord) hsplit
  rw [takeWhile_append_of_head h.isCall.isWord h.ends,
    takeWhile_append_of_head h'.isCall.isWord h'.ends] at this
  exact this.symm

/-- The prefix of a call is followed by a digit, not by white space. -/
theorem IsCall.ne_de {call rest sp t : Str} (h : IsCall u call) (hne : sp ≠ [])
    (hsp : ∀ c ∈ sp, isSpace c = true) : call ++ rest ≠ 'D' :: 'E' :: (sp ++ t) := by
  intro heq
  obtain ⟨p, d, q, rfl, hp, hlo, hhi, hd, -⟩ := h
  match p, hlo, hhi with
  | [a], _, _ =>
    simp only [List.nil_append, List.cons_append, List.cons.injEq] at heq
    rw [heq.2.1, isDecimal, u.decimal_ascii 'E' (by decide)] at hd
    cases hd
  | [a, b], _, _ =>
    cases sp with
    | nil => exact hne rfl
    | cons e sp =>
      simp only [List.nil_append, List.cons_append, List.cons.injEq] at heq
      have hspace := hsp e (by simp)
      rw [← heq.2.2.1, isSpace_of_isWord (u.isWord_decimal d hd)] at hspace
      cases hspace

/-- `DE` and a call do not start inside another such pair: white space is not `D`, a call
is not `DE`, and the inside of a call is no word boundary. -/
theorem deCallRe_disjoint : Disjoint (deCallRe u) := by
  intro prev x y m hx hm hlt
  rw [matchAt_eq_none]
  intro m' hm'
  obtain ⟨-, sp, call, rest, h, rfl⟩ := mem_ways_deCallRe.mp (matchAt_mem hm)
  obtain ⟨hprev, sp', call', rest', h', -⟩ := mem_ways_deCallRe.mp hm'
  have hsplit := h.split
  rw [h'.split] at hsplit
  cases x with
  | nil => exact hx rfl
  | cons a x =>
    cases x with
    | nil => simp at hsplit
    | cons b x =>
      simp only [List.cons_append, List.cons.injEq] at hsplit
      obtain ⟨rfl, rfl, hsplit⟩ := hsplit
      simp only [List.length_cons, List.length_append] at hlt
      rcases List.append_eq_append_iff.mp hsplit with ⟨c, hc, hy⟩ | ⟨c, hc, hy⟩
      · cases c with
        | nil => exact h.isCall.ne_de h'.sp_ne h'.sp_space hy.symm
        | cons e c =>
          simp only [List.cons_append, List.cons.injEq] at hy
          have hspace := h.sp_space 'D' (by rw [hc, hy.1]; simp)
          exact absurd hspace (by decide)
      · cases c with
        | nil => exact h.isCall.ne_de h'.sp_ne h'.sp_space hy
        | cons e c =>
          have hlen : (e :: c).length ≤ call.length := by
            rw [hc, List.length_append] at hlt
            omega
          obtain ⟨more, hcall⟩ : e :: c <+: call :=
            List.prefix_of_prefix_length_le ⟨_, hy.symm⟩ ⟨rest, rfl⟩ hlen
          have hword : ∀ a ∈ e :: c, u.isWord a = true := by
            intro a ha
            exact h.isCall.isWord a (hcall ▸ List.mem_append_left more ha)
          have hsplit' : 'D' :: 'E' :: x = ('D' :: 'E' :: sp) ++ (e :: c) := by rw [hc]; rfl
          rw [hsplit', after_append, after_any_of_forall (by simp) hword] at hprev
          cases hprev

/-- The calls found after `DE` are all that stand there. -/
theorem mem_findall_deCallRe {s call : Str} :
    call ∈ findall (deCallRe u) s ↔ ∃ x y sp rest, s = x ++ y ∧
      x.getLast?.any u.isWord = false ∧ DeCall u y sp call rest := by
  constructor
  · intro h
    obtain ⟨m, hm, rfl⟩ := List.mem_map.mp h
    obtain ⟨x, y, rfl, -, hmatch⟩ := exists_of_mem_findallFrom hm
    obtain ⟨hprev, sp, call, rest, hde, rfl⟩ := mem_ways_deCallRe.mp (matchAt_mem hmatch)
    rw [after, Option.or_none] at hprev
    exact ⟨x, y, sp, rest, rfl, hprev, hde⟩
  · rintro ⟨x, y, sp, rest, rfl, hx, hde⟩
    have hprev : (after none x).any u.isWord = false := by rwa [after, Option.or_none]
    have hmem : ⟨'D' :: 'E' :: (sp ++ call), rest, [call]⟩ ∈ ways (deCallRe u) (after none x) y :=
      mem_ways_deCallRe.mpr ⟨hprev, sp, call, rest, hde, rfl⟩
    cases hmatch : matchAt (deCallRe u) (after none x) y with
    | none => exact absurd hmem (matchAt_eq_none.mp hmatch _)
    | some m =>
      obtain ⟨-, sp', call', rest', hde', rfl⟩ := mem_ways_deCallRe.mp (matchAt_mem hmatch)
      have hy : y ≠ [] := by
        rw [hde.split]
        simp
      refine List.mem_map.mpr ⟨_, mem_findallFrom deCallRe_disjoint (Nat.zero_le _) hy hmatch, ?_⟩
      exact hde.unique hde'

theorem deCalls_append_space {s call : Str} (t : Str) (h : call ∈ findall (deCallRe u) s) :
    call ∈ findall (deCallRe u) (s ++ ' ' :: t) := by
  obtain ⟨x, y, sp, rest, rfl, hx, hde⟩ := mem_findall_deCallRe.mp h
  refine mem_findall_deCallRe.mpr ⟨x, y ++ ' ' :: t, sp, rest ++ ' ' :: t, by simp, hx,
    ⟨?_, hde.sp_ne, hde.sp_space, hde.isCall, ?_⟩⟩
  · rw [hde.split]
    simp
  · have hends := hde.ends
    cases rest with
    | nil => exact isWord_space
    | cons c rest => exact hends

theorem deCalls_of_append_space {s call : Str} (h : call ∈ findall (deCallRe u) (s ++ [' '])) :
    call ∈ findall (deCallRe u) s := by
  obtain ⟨x, y, sp, rest, hsplit, hx, hde⟩ := mem_findall_deCallRe.mp h
  -- the blank at the end is not in the call, so it is behind it
  have hrest : rest ≠ [] := by
    rintro rfl
    have hlast := congrArg List.getLast? hsplit
    rw [hde.split, List.append_nil] at hlast
    have hword := hde.isCall.isWord _ (List.getLast_mem hde.isCall.ne_nil)
    simp only [List.getLast?_append, List.getLast?_cons,
      List.getLast?_eq_getLast_of_ne_nil hde.isCall.ne_nil] at hlast
    simp at hlast
    rw [← hlast, isWord_space] at hword
    cases hword
  obtain ⟨front, last, rfl⟩ : ∃ front last, rest = front ++ [last] :=
    ⟨rest.dropLast, rest.getLast hrest, (List.dropLast_append_getLast hrest).symm⟩
  have hs : s = x ++ 'D' :: 'E' :: (sp ++ (call ++ front)) := by
    have hend : s ++ [' '] = (x ++ 'D' :: 'E' :: (sp ++ (call ++ front))) ++ [last] := by
      rw [hsplit, hde.split]
      simp
    exact (List.append_inj' hend rfl).1
  refine mem_findall_deCallRe.mpr ⟨x, _, sp, front, hs, hx,
    ⟨rfl, hde.sp_ne, hde.sp_space, hde.isCall, ?_⟩⟩
  cases front with
  | nil => rfl
  | cons c front => exact hde.ends

/-! ## What is extracted -/

/-- The admission rule of `extract_callsigns`. -/
def Admitted (u : Unicode) (upper m : Str) : Prop :=
  m ∈ findall (callsignRe u) upper ∧ hasPlausiblePrefix u m = true ∧
    (minUncorroboratedLen ≤ m.length ∨ m ∈ findall (deCallRe u) upper ∨
      1 < (findall (callsignRe u) upper).count m)

theorem mem_foldl_noteCall {tokens afterDe l seen : List Str} {m : Str} :
    m ∈ l.foldl (noteCall u tokens afterDe) seen ↔ m ∈ seen ∨
      (m ∈ l ∧ hasPlausiblePrefix u m = true ∧
        (minUncorroboratedLen ≤ m.length ∨ m ∈ afterDe ∨ 1 < tokens.count m)) := by
  induction l generalizing seen with
  | nil => simp
  | cons a l ih =>
    have hstep : m ∈ noteCall u tokens afterDe seen a ↔ m ∈ seen ∨
        (m = a ∧ hasPlausiblePrefix u m = true ∧
          (minUncorroboratedLen ≤ m.length ∨ m ∈ afterDe ∨ 1 < tokens.count m)) := by
      unfold noteCall
      split_ifs with hskip hshort
      · grind
      · grind
      · grind
    rw [List.foldl_cons, ih, hstep, List.mem_cons, or_and_right, or_assoc]

theorem mem_extractCallsigns {text m : Str} :
    m ∈ extractCallsigns u text ↔ Admitted u (u.upper text) m := by
  rw [extractCallsigns, mem_foldl_noteCall]
  simp [Admitted]

theorem upper_append_space (s t : Str) :
    u.upper (s ++ ' ' :: t) = u.upper s ++ ' ' :: u.upper t := by
  have hspace : u.upperChar ' ' = [' '] := u.upperChar_ascii ' ' (by decide)
  simp [Unicode.upper, hspace]

theorem extractCallsigns_append_space {s m : Str} (t : Str) (h : m ∈ extractCallsigns u s) :
    m ∈ extractCallsigns u (s ++ ' ' :: t) := by
  rw [mem_extractCallsigns] at h ⊢
  obtain ⟨htoken, hplausible, hcorroborated⟩ := h
  obtain ⟨more, hmore, -⟩ := tokens_append_space (u := u) (u.upper s) (u.upper t)
  rw [upper_append_space]
  refine ⟨?_, hplausible, ?_⟩
  · rw [hmore]
    exact List.mem_append_left more htoken
  · rcases hcorroborated with hlen | hde | hcount
    · exact .inl hlen
    · exact .inr (.inl (deCalls_append_space _ hde))
    · right; right
      rw [hmore, List.count_append]
      omega

theorem extractCallsigns_of_append_space {s m : Str}
    (h : m ∈ extractCallsigns u (s ++ [' '])) : m ∈ extractCallsigns u s := by
  rw [mem_extractCallsigns, upper_append_space] at h
  obtain ⟨more, hmore, hnil⟩ := tokens_append_space (u := u) (u.upper s) (u.upper [])
  rw [hnil rfl, List.append_nil] at hmore
  obtain ⟨htoken, hplausible, hcorroborated⟩ := h
  rw [hmore] at htoken hcorroborated
  rw [mem_extractCallsigns]
  refine ⟨htoken, hplausible, ?_⟩
  rcases hcorroborated with hlen | hde | hcount
  · exact .inl hlen
  · exact .inr (.inl (deCalls_of_append_space hde))
  · exact .inr (.inr hcount)

/-- The calls of the words before any blank are among those before the last one. -/
theorem extractCallsigns_beforeLastSpace {a b m : Str} (h : m ∈ extractCallsigns u a) :
    m ∈ extractCallsigns u (beforeLastSpace (a ++ ' ' :: b)) := by
  by_cases hb : ' ' ∈ b
  · obtain ⟨b₁, b₂, rfl, hb₂⟩ := exists_last_space hb
    have hsplit : a ++ ' ' :: (b₁ ++ ' ' :: b₂) = (a ++ ' ' :: b₁) ++ ' ' :: b₂ := by simp
    rw [hsplit, beforeLastSpace_append hb₂]
    exact extractCallsigns_append_space b₁ h
  · rwa [beforeLastSpace_append hb]

end CwStation.Bridge
