import CwStation.Verification.Decoder.Equations
import CwStation.Verification.Morse.Rendering
import CwStation.Verification.Python.Strings
import Mathlib.Data.List.Chain

/-! # The decoder's ledger

Between calls every mark heard is an element or still buffered, every element is in a
character or in the pending symbol, and the text is the characters written out. The
ledger states this with the buffered runs as a parameter, so that it also describes the
states in the middle of a bootstrap replay. -/

namespace CwStation

open Morse (Code decodeSymbol decodeSymbol_ne_nil decodeSymbol_isSpace)

/-! ## Characters -/

namespace CharEvent

variable {F : Type}

def IsGlyph (ev : CharEvent F) : Prop := ev.morse ≠ [] ∧ ev.char = decodeSymbol ev.morse

def IsBlank (ev : CharEvent F) : Prop := ev.morse = [] ∧ ev.char = [' ']

/-- A sequence of characters and single blanks that does not start with a blank. -/
structure Spaced (chars : List (CharEvent F)) : Prop where
  each : ∀ ev ∈ chars, ev.IsGlyph ∨ ev.IsBlank
  head : ∀ ev ∈ chars.head?, ¬ ev.IsBlank
  apart : chars.IsChain fun a b => ¬ (a.IsBlank ∧ b.IsBlank)

theorem IsGlyph.not_isBlank {ev : CharEvent F} (h : ev.IsGlyph) : ¬ ev.IsBlank :=
  fun hb => h.1 hb.1

theorem IsGlyph.getLast_ne_space {ev : CharEvent F} (h : ev.IsGlyph) :
    ev.char.getLast? ≠ some ' ' := by
  intro hlast
  rw [h.2] at hlast
  have hmem := decodeSymbol_isSpace ev.morse ' ' (List.mem_of_getLast? hlast)
  exact absurd hmem (by decide)

theorem Spaced.nil : Spaced ([] : List (CharEvent F)) :=
  ⟨by simp, by simp, by simp⟩

theorem Spaced.append_glyph {chars : List (CharEvent F)} {ev : CharEvent F}
    (h : Spaced chars) (hev : ev.IsGlyph) : Spaced (chars ++ [ev]) := by
  refine ⟨?_, ?_, ?_⟩
  · intro x hx
    rcases List.mem_append.mp hx with hx | hx
    · exact h.each x hx
    · rw [List.mem_singleton.mp hx]
      exact .inl hev
  · intro x hx
    cases chars with
    | nil =>
      simp only [List.nil_append, List.head?_cons, Option.mem_def, Option.some.injEq] at hx
      exact hx ▸ hev.not_isBlank
    | cons first rest => exact h.head x (by simpa using hx)
  · apply h.apart.append (by simp)
    intro a _ b hb
    simp only [List.head?_cons, Option.mem_def, Option.some.injEq] at hb
    exact fun hab => hev.not_isBlank (hb ▸ hab.2)

theorem Spaced.append_blank {chars : List (CharEvent F)} {ev : CharEvent F}
    (h : Spaced chars) (hne : chars ≠ []) (hlast : ∀ x ∈ chars.getLast?, ¬ x.IsBlank)
    (hev : ev.IsBlank) : Spaced (chars ++ [ev]) := by
  refine ⟨?_, ?_, ?_⟩
  · intro x hx
    rcases List.mem_append.mp hx with hx | hx
    · exact h.each x hx
    · rw [List.mem_singleton.mp hx]
      exact .inr hev
  · intro x hx
    cases chars with
    | nil => exact (hne rfl).elim
    | cons first rest => exact h.head x (by simpa using hx)
  · apply h.apart.append (by simp)
    intro a ha b _
    exact fun hab => hlast a ha hab.1

theorem Spaced.char_ne_nil {chars : List (CharEvent F)} (h : Spaced chars) :
    ∀ ev ∈ chars, ev.char ≠ [] := by
  intro ev hev
  rcases h.each ev hev with hg | hb
  · rw [hg.2]
    exact decodeSymbol_ne_nil _
  · simp [hb.2]

theorem Spaced.flatMap_eq_nil {chars : List (CharEvent F)} (h : Spaced chars) :
    chars.flatMap CharEvent.char = [] ↔ chars = [] := by
  constructor
  · intro hnil
    cases chars with
    | nil => rfl
    | cons ev rest =>
      rw [List.flatMap_cons, List.append_eq_nil_iff] at hnil
      exact absurd hnil.1 (h.char_ne_nil ev (by simp))
  · rintro rfl
    rfl

/-- The text ends with a blank exactly when the last character is a blank. -/
theorem Spaced.endsWithSpace_iff {chars : List (CharEvent F)} (h : Spaced chars) :
    endsWithSpace (chars.flatMap CharEvent.char) = true ↔ ∃ ev ∈ chars.getLast?, ev.IsBlank := by
  rcases List.eq_nil_or_concat chars with rfl | ⟨front, last, rfl⟩
  · simp [endsWithSpace]
  · rw [List.concat_eq_append] at h ⊢
    have hne := h.char_ne_nil last (by simp)
    simp only [endsWithSpace, List.flatMap_append, List.flatMap_singleton,
      List.getLast?_append_of_ne_nil _ hne, beq_iff_eq, List.getLast?_concat, Option.mem_def,
      Option.some.injEq, exists_eq_left']
    rcases h.each last (by simp) with hg | hb
    · exact iff_of_false hg.getLast_ne_space hg.not_isBlank
    · exact iff_of_true (by simp [hb.2]) hb

theorem IsGlyph.rstrip_append {ev : CharEvent F} (h : ev.IsGlyph) (text : Str) :
    rstrip (text ++ ev.char) = text ++ ev.char := by
  rw [h.2]
  have hne := decodeSymbol_ne_nil ev.morse
  have hlast := decodeSymbol_isSpace ev.morse _ (List.getLast_mem hne)
  rw [← List.dropLast_append_getLast hne, ← List.append_assoc]
  exact rstrip_of_last hlast

/-- Stripping the text takes away the last blank at most. -/
theorem Spaced.prefix_rstrip {front chars : List (CharEvent F)} (h : Spaced chars)
    (hfront : front <+: chars) (hlen : front.length < chars.length) :
    front.flatMap CharEvent.char <+: rstrip (chars.flatMap CharEvent.char) := by
  rcases List.eq_nil_or_concat chars with rfl | ⟨init, last, rfl⟩
  · simp at hlen
  · rw [List.concat_eq_append] at h hfront hlen ⊢
    obtain ⟨more, rfl⟩ : front <+: init := by
      refine List.prefix_of_prefix_length_le hfront (List.prefix_append _ _) ?_
      rw [List.length_append, List.length_singleton] at hlen
      omega
    rw [List.flatMap_append, List.flatMap_singleton]
    rcases h.each last (by simp) with hglyph | hblank
    · rw [hglyph.rstrip_append, List.flatMap_append, List.append_assoc]
      exact List.prefix_append _ _
    · rw [hblank.2, rstrip_append_space (by decide)]
      rcases List.eq_nil_or_concat (front ++ more) with hnil | ⟨init', last', heq⟩
      · rw [(List.append_eq_nil_iff.mp hnil).1]
        exact List.nil_prefix
      · have hapart := h.apart
        rw [List.concat_eq_append] at heq
        have hlast' : last'.IsGlyph := by
          have hmem : last' ∈ front ++ more := by simp [heq]
          rcases h.each last' (List.mem_append_left _ hmem) with hglyph | hblank'
          · exact hglyph
          · rw [heq, List.isChain_append] at hapart
            exact absurd ⟨hblank', hblank⟩ (hapart.2.2 last' (by simp) last (by simp))
        have hstrip : rstrip ((front ++ more).flatMap CharEvent.char) =
            (front ++ more).flatMap CharEvent.char := by
          rw [heq, List.flatMap_append, List.flatMap_singleton]
          exact hlast'.rstrip_append _
        rw [hstrip, List.flatMap_append]
        exact List.prefix_append _ _

end CharEvent

/-! ## The ledger -/

namespace DecodeState

open Emit CharEvent

variable {F : Type} [PyFloat F]

/-- The key run recorded for a mark. -/
def markRun (t dur : F) : KeyRun F :=
  ⟨true, PyFloat.round t 4, PyFloat.round (dur * PyFloat.lit 1000) 2⟩

/-- The marks among buffered runs. -/
def bootMark : BootRun F → Option (F × F)
  | (true, t, dur) => some (t, dur)
  | (false, _, _) => none

/-- The key run an element was made from. -/
def elementRun (ev : ElementEvent F) : KeyRun F := ⟨true, ev.tStart, ev.durMs⟩

structure Ledger (pending : List (BootRun F)) (d : DecodeState F) : Prop where
  marks : d.result.keyRuns = d.result.elements.map elementRun ++
    (pending.filterMap bootMark).map fun m => markRun m.1 m.2
  kinds : d.result.chars.flatMap CharEvent.morse ++ d.cur = d.result.elements.map ElementEvent.kind
  text : d.result.text = d.result.chars.flatMap CharEvent.char
  spaced : Spaced d.result.chars

theorem addElement_ledger {d : DecodeState F} {dit t dur : F} {rest : List (BootRun F)}
    (h : Ledger ((true, t, dur) :: rest) d) (hd : d.dit = some dit) :
    ∃ d', addElement t dur d = .ok d' ∧ Ledger rest d' ∧ Advance d [] d' ∧
      d'.dit = some (adaptDit dit dur) ∧ d'.cur ≠ [] ∧
      d'.bootRuns = d.bootRuns ∧ d'.bootMarks = d.bootMarks := by
  refine ⟨_, addElement_of_dit hd t dur, ⟨?_, ?_, h.text, h.spaced⟩, ⟨⟨by simp, by simp⟩, rfl⟩,
    rfl, by simp, rfl, rfl⟩
  · simp [h.marks, bootMark, markRun, elementRun]
  · simp [← h.kinds]

theorem flushCur_ledger {d : DecodeState F} {pending : List (BootRun F)}
    (h : Ledger pending d) (t : F) : Ledger pending (flushCur t d).2 := by
  unfold flushCur
  split
  · exact h
  · rename_i hcur
    refine ⟨h.marks, ?_, ?_, ?_⟩
    · simp [← h.kinds]
    · simp [h.text]
    · apply h.spaced.append_glyph
      exact ⟨hcur, by dsimp only⟩

theorem flushWord_ledger {d : DecodeState F} {pending : List (BootRun F)}
    (h : Ledger pending d) (t : F) : Ledger pending (flushWord t d).2 := by
  unfold flushWord
  split
  · exact h
  · rename_i hend
    rw [not_or, h.text, h.spaced.flatMap_eq_nil, h.spaced.endsWithSpace_iff] at hend
    refine ⟨h.marks, ?_, ?_, ?_⟩
    · simp [← h.kinds]
    · simp [h.text]
    · exact h.spaced.append_blank hend.1 (fun x hx hb => hend.2 ⟨x, hx, hb⟩) ⟨rfl, rfl⟩

theorem flushChar_ledger {d : DecodeState F} {pending : List (BootRun F)}
    (h : Ledger pending d) (t : F) (word : Bool) : Ledger pending (flushChar t word d).2 := by
  cases word with
  | false => exact flushCur_ledger h t
  | true => exact flushWord_ledger (flushCur_ledger h t) t

theorem spaceLogic_ledger {d : DecodeState F} {dit : F} {pending : List (BootRun F)}
    (h : Ledger pending d) (hd : d.dit = some dit) (dur t : F) :
    ∃ out d', spaceLogic dur t d = .ok (out, d') ∧ Ledger pending d' ∧ Advance d out d' ∧
      d'.dit = some dit ∧ d'.bootRuns = d.bootRuns ∧ d'.bootMarks = d.bootMarks := by
  rw [spaceLogic_of_dit hd]
  split
  · exact ⟨[], d, rfl, h, .refl d, hd, rfl, rfl⟩
  · obtain ⟨hdit, hruns, hmarks, _⟩ := flushChar_keeps t (decide ¬dur < PyFloat.lit 5 * dit) d
    exact ⟨_, _, rfl, flushChar_ledger h t _, flushChar_advance t _ d, hdit.trans hd, hruns, hmarks⟩

end DecodeState

end CwStation
