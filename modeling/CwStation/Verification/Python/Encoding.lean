import CwStation.Verification.Python.Urlencoded
import Mathlib.Data.List.Basic
import Mathlib.Tactic.Common

/-! # What is encoded is read again

`parse_qsl` of `urlencode` is the identity: UTF-8 decodes to the character it encodes, an escape
to its byte, and none of the characters that separate pairs is left in a name or a value. -/

namespace CwStation.Urlencoded

/-! ## UTF-8 -/

theorem toNat_lt (c : Char) : c.toNat < 0xd800 ∨ 0xdfff < c.toNat ∧ c.toNat < 0x110000 := by
  rcases c.valid with h | h
  · exact .inl h
  · exact .inr h

/-- A byte that goes on with a character. -/
theorem decodeUtf8_more {bits owed low high b : ℕ} (bs : List ℕ) (hlow : low ≤ b)
    (hhigh : b ≤ high) :
    decodeUtf8 (some { bits := bits, owed := owed + 2, low := low, high := high }) (b :: bs) =
      decodeUtf8 (some { bits := bits * 64 + (b - 0x80), owed := owed + 1 }) bs := by
  rw [decodeUtf8, if_pos ⟨hlow, hhigh⟩]
  simp

/-- The last byte of a character. -/
theorem decodeUtf8_last {bits low high b : ℕ} (bs : List ℕ) (hlow : low ≤ b) (hhigh : b ≤ high) :
    decodeUtf8 (some { bits := bits, owed := 1, low := low, high := high }) (b :: bs) =
      Char.ofNat (bits * 64 + (b - 0x80)) :: decodeUtf8 none bs := by
  rw [decodeUtf8, if_pos ⟨hlow, hhigh⟩]
  simp

/-- The first byte of a character of more bytes than one. -/
theorem decodeUtf8_lead {b : ℕ} {p : Pending} (bs : List ℕ) (hb : 0x80 ≤ b)
    (hlead : lead b = some p) : decodeUtf8 none (b :: bs) = decodeUtf8 (some p) bs := by
  rw [decodeUtf8, startByte, if_neg (by omega), hlead]
  rfl

/-- The bounds of the second byte leave out what shorter forms and surrogates would take. -/
theorem lead_three {n : ℕ} (h : 0x800 ≤ n) (h' : n < 0x10000) (hvalid : n < 0xd800 ∨ 0xdfff < n) :
    ∃ low high, lead (0xe0 + n / 4096) =
        some { bits := n / 4096, owed := 2, low := low, high := high } ∧
      low ≤ 0x80 + n / 64 % 64 ∧ 0x80 + n / 64 % 64 ≤ high := by
  unfold lead
  rw [if_neg (by omega)]
  by_cases hzero : n / 4096 = 0
  · refine ⟨0xa0, 0xbf, ?_, by omega, by omega⟩
    rw [hzero, if_pos (by omega)]
  · rw [if_neg (by omega)]
    by_cases hsurrogate : n / 4096 = 13
    · refine ⟨0x80, 0x9f, ?_, by omega, by omega⟩
      rw [hsurrogate, if_pos (by omega)]
    · refine ⟨0x80, 0xbf, ?_, by omega, by omega⟩
      rw [if_neg (by omega), if_pos (by omega), Nat.add_sub_cancel_left]

theorem lead_four {n : ℕ} (h : 0x10000 ≤ n) (h' : n < 0x110000) :
    ∃ low high, lead (0xf0 + n / 262144) =
        some { bits := n / 262144, owed := 3, low := low, high := high } ∧
      low ≤ 0x80 + n / 4096 % 64 ∧ 0x80 + n / 4096 % 64 ≤ high := by
  unfold lead
  rw [if_neg (by omega), if_neg (by omega), if_neg (by omega), if_neg (by omega)]
  by_cases hzero : n / 262144 = 0
  · refine ⟨0x90, 0xbf, ?_, by omega, by omega⟩
    rw [hzero, if_pos (by omega)]
  · rw [if_neg (by omega)]
    by_cases hlast : n / 262144 = 4
    · refine ⟨0x80, 0x8f, ?_, by omega, by omega⟩
      rw [hlast, if_neg (by omega), if_pos (by omega)]
    · refine ⟨0x80, 0xbf, ?_, by omega, by omega⟩
      rw [if_pos (by omega), Nat.add_sub_cancel_left]

theorem decodeUtf8_encodeChar (c : Char) (bs : List ℕ) :
    decodeUtf8 none (encodeChar c ++ bs) = c :: decodeUtf8 none bs := by
  have hvalid := toNat_lt c
  have hchar : Char.ofNat c.toNat = c := Char.ofNat_toNat c
  unfold encodeChar
  generalize c.toNat = n at hvalid hchar
  dsimp only
  by_cases h1 : n < 0x80
  · simp [h1, decodeUtf8, startByte, hchar]
  · rw [if_neg h1]
    by_cases h2 : n < 0x800
    · have hlead : lead (0xc0 + n / 64) = some { bits := n / 64, owed := 1 } := by
        rw [lead, if_pos (by omega), Nat.add_sub_cancel_left]
      have hbits : n / 64 * 64 + (0x80 + n % 64 - 0x80) = n := by omega
      rw [if_pos h2, List.cons_append, decodeUtf8_lead _ (by omega) hlead, List.cons_append,
        decodeUtf8_last _ (by omega) (by omega), hbits, hchar, List.nil_append]
    · rw [if_neg h2]
      by_cases h3 : n < 0x10000
      · obtain ⟨low, high, hlead, hlow, hhigh⟩ := lead_three (by omega) h3 (by omega)
        have hbits : (n / 4096 * 64 + (0x80 + n / 64 % 64 - 0x80)) * 64 + (0x80 + n % 64 - 0x80) =
            n := by omega
        rw [if_pos h3, List.cons_append, decodeUtf8_lead _ (by omega) hlead, List.cons_append,
          decodeUtf8_more _ hlow hhigh, List.cons_append,
          decodeUtf8_last _ (by omega) (by omega), hbits, hchar, List.nil_append]
      · obtain ⟨low, high, hlead, hlow, hhigh⟩ := lead_four (n := n) (by omega) (by omega)
        have hbits : ((n / 262144 * 64 + (0x80 + n / 4096 % 64 - 0x80)) * 64 +
            (0x80 + n / 64 % 64 - 0x80)) * 64 + (0x80 + n % 64 - 0x80) = n := by omega
        rw [if_neg h3, List.cons_append, decodeUtf8_lead _ (by omega) hlead, List.cons_append,
          decodeUtf8_more _ hlow hhigh, List.cons_append,
          decodeUtf8_more _ (by omega) (by omega), List.cons_append,
          decodeUtf8_last _ (by omega) (by omega), hbits, hchar, List.nil_append]

theorem decodeUtf8_encodeUtf8 (s : Str) : decodeUtf8 none (encodeUtf8 s) = s := by
  induction s with
  | nil => rfl
  | cons c s ih =>
    change decodeUtf8 none (encodeChar c ++ encodeUtf8 s) = c :: s
    rw [decodeUtf8_encodeChar, ih]

theorem encodeChar_lt (c : Char) : ∀ b ∈ encodeChar c, b < 256 := by
  have hvalid := toNat_lt c
  unfold encodeChar
  generalize c.toNat = n at hvalid
  dsimp only
  intro b hb
  split_ifs at hb <;> simp only [List.mem_cons, List.not_mem_nil, or_false] at hb <;> omega

/-! ## Escapes -/

/-- What the reader of a pair looks for. -/
def separators : List Char := ['+', '%', '&', '=']

theorem ofNat_unreserved : ∀ b < 128, isUnreserved b = true →
    (Char.ofNat b).toNat = b ∧ Char.ofNat b ∉ separators := by
  decide +kernel

theorem escape_hexChar : ∀ b < 256, escape (hexChar (b / 16)) (hexChar (b % 16)) = some b ∧
    hexChar (b / 16) ∉ separators ∧ hexChar (b % 16) ∉ separators := by
  decide +kernel

theorem quoteByte_plain {b : ℕ} (h : isUnreserved b = true) : b < 128 := by
  unfold isUnreserved at h
  rw [Bool.and_eq_true] at h
  exact of_decide_eq_true h.1

theorem tokens_quoteByte {b : ℕ} (hb : b < 256) (rest : Str) :
    tokens (plusToSpace (quoteByte b) ++ rest) = .inl b :: tokens rest := by
  have hplain : ∀ c : Char, c ∉ separators → c.toNat = b → b < 128 →
      tokens (plusToSpace [c] ++ rest) = .inl b :: tokens rest := by
    intro c hc hn hlt
    have hplus : c ≠ '+' := fun h => hc (by simp [h, separators])
    have hpercent : c ≠ '%' := fun h => hc (by simp [h, separators])
    simp only [plusToSpace, List.map_cons, List.map_nil, if_neg hplus, List.cons_append,
      List.nil_append]
    rw [tokens]
    · simp [plainToken, hn, hlt]
    · exact fun _ _ _ h _ => hpercent h
  unfold quoteByte
  by_cases hunreserved : isUnreserved b = true
  · have hlt := quoteByte_plain hunreserved
    obtain ⟨hn, hc⟩ := ofNat_unreserved b hlt hunreserved
    rw [if_pos hunreserved]
    exact hplain _ hc hn hlt
  · rw [if_neg hunreserved]
    by_cases hblank : b = 32
    · subst hblank
      exact hplain ' ' (by decide) rfl (by omega)
    · obtain ⟨hescape, hhigh, hlow⟩ := escape_hexChar b hb
      have hne : ∀ c : Char, c ∉ separators → c ≠ '+' := fun c hc h => hc (by simp [h, separators])
      rw [if_neg hblank]
      simp [plusToSpace, hne _ hhigh, hne _ hlow, tokens, hescape]

theorem tokens_quoted {bs : List ℕ} (hbs : ∀ b ∈ bs, b < 256) :
    tokens (plusToSpace (bs.flatMap quoteByte)) = bs.map .inl := by
  induction bs with
  | nil => rfl
  | cons b bs ih =>
    have hsplit : plusToSpace ((b :: bs).flatMap quoteByte) =
        plusToSpace (quoteByte b) ++ plusToSpace (bs.flatMap quoteByte) := List.map_append
    rw [hsplit, tokens_quoteByte (hbs b (.head _)), ih fun x hx => hbs x (.tail _ hx)]
    rfl

theorem decodeRuns_bytes (run bs : List ℕ) :
    decodeRuns run (bs.map .inl) = decodeUtf8 none (run ++ bs) := by
  induction bs generalizing run with
  | nil => rw [List.append_nil]; rfl
  | cons b bs ih =>
    rw [List.map_cons, decodeRuns, ih, List.append_assoc]
    rfl

theorem unquotePlus_quotePlus (s : Str) : unquotePlus (quotePlus s) = s := by
  have hbytes : ∀ b ∈ encodeUtf8 s, b < 256 := by
    intro b hb
    obtain ⟨c, -, hb⟩ := List.mem_flatMap.mp hb
    exact encodeChar_lt c b hb
  rw [unquotePlus, unquote, quotePlus, tokens_quoted hbytes, decodeRuns_bytes, List.nil_append,
    decodeUtf8_encodeUtf8]

/-! ## Pairs -/

theorem not_mem_quotePlus (s : Str) : '&' ∉ quotePlus s ∧ '=' ∉ quotePlus s := by
  have hall : ∀ x ∈ quotePlus s, x ≠ '&' ∧ x ≠ '=' := by
    intro x hx
    obtain ⟨b, hb, hx⟩ := List.mem_flatMap.mp hx
    obtain ⟨c, -, hb⟩ := List.mem_flatMap.mp hb
    have hne : ∀ y : Char, y ∉ separators → y ≠ '&' ∧ y ≠ '=' := by
      intro y hy
      exact ⟨fun h => hy (by simp [h, separators]), fun h => hy (by simp [h, separators])⟩
    unfold quoteByte at hx
    split_ifs at hx with hunreserved hblank
    · rw [List.mem_singleton.mp hx]
      exact hne _ (ofNat_unreserved b (quoteByte_plain hunreserved) hunreserved).2
    · rw [List.mem_singleton.mp hx]
      decide
    · obtain ⟨-, hhigh, hlow⟩ := escape_hexChar b (encodeChar_lt c b hb)
      rcases List.mem_cons.mp hx with rfl | hx
      · decide
      · rcases List.mem_cons.mp hx with rfl | hx
        · exact hne _ hhigh
        · rw [List.mem_singleton.mp hx]
          exact hne _ hlow
  exact ⟨fun h => (hall _ h).1 rfl, fun h => (hall _ h).2 rfl⟩

theorem parsePair_quoted (k v : Str) : parsePair (pairText (quotePlus k, quotePlus v)) = (k, v) := by
  have hkey := (not_mem_quotePlus k).2
  have hall : ∀ x ∈ quotePlus k, decide (x ≠ '=') = true := by
    intro x hx
    exact decide_eq_true fun h => hkey (h ▸ hx)
  rw [parsePair, pairText, List.takeWhile_append_of_pos hall, List.dropWhile_append_of_pos hall]
  simp [unquotePlus_quotePlus]

theorem parseQsl_urlencode (pairs : List (Str × Str)) : parseQsl (urlencode pairs) = pairs := by
  have hamp : ∀ text ∈ (pairs.map fun e => (quotePlus e.1, quotePlus e.2)).map pairText,
      '&' ∉ text := by
    intro text htext
    obtain ⟨quoted, hquoted, rfl⟩ := List.mem_map.mp htext
    obtain ⟨e, -, rfl⟩ := List.mem_map.mp hquoted
    simp [pairText, (not_mem_quotePlus e.1).1, (not_mem_quotePlus e.2).1]
  change parseQsl (joinPairs (pairs.map fun e => (quotePlus e.1, quotePlus e.2))) = pairs
  rw [parseQsl_of_not_amp hamp, List.map_map]
  have hsame : (fun e : Str × Str => parsePair (pairText (quotePlus e.1, quotePlus e.2))) = id := by
    funext e
    exact parsePair_quoted e.1 e.2
  exact (congrArg (List.map · pairs) hsame).trans (List.map_id pairs)

end CwStation.Urlencoded
