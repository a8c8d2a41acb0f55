import CwStation.Model.Python

/-! # Reading form-encoded text

`urllib.parse.parse_qsl` with `keep_blank_values`, which is how a `QueryDict` reads a query
string, down to the bytes a percent escape stands for. -/

namespace CwStation.Urlencoded

/-! ## `bytes.decode("utf-8", "replace")` -/

/-- U+FFFD, which stands for what is not UTF-8. -/
def replacement : Char := Char.ofNat 0xfffd

/-- A character begun: the bits read, the bytes still owed (at least one) and the bounds of
the next one. -/
structure Pending where
  bits : ℕ
  owed : ℕ
  low : ℕ := 0x80
  high : ℕ := 0xbf
  deriving DecidableEq, Repr

/-- What a lead byte begins; nothing is begun by a byte that leads no character. -/
def lead (b : ℕ) : Option Pending :=
  if 0xc2 ≤ b ∧ b ≤ 0xdf then some { bits := b - 0xc0, owed := 1 }
  else if b = 0xe0 then some { bits := 0, owed := 2, low := 0xa0 }
  else if b = 0xed then some { bits := 13, owed := 2, high := 0x9f }
  else if 0xe1 ≤ b ∧ b ≤ 0xef then some { bits := b - 0xe0, owed := 2 }
  else if b = 0xf0 then some { bits := 0, owed := 3, low := 0x90 }
  else if 0xf1 ≤ b ∧ b ≤ 0xf3 then some { bits := b - 0xf0, owed := 3 }
  else if b = 0xf4 then some { bits := 4, owed := 3, high := 0x8f }
  else none

/-- A byte where a character may start: what it writes, and what it begins. -/
def startByte (b : ℕ) : Str × Option Pending :=
  if b < 0x80 then ([Char.ofNat b], none)
  else match lead b with
    | some p => ([], some p)
    | none => ([replacement], none)

/-- `bytes.decode("utf-8", "replace")`: each longest piece that starts a character and does
not finish it becomes one U+FFFD. -/
def decodeUtf8 : Option Pending → List ℕ → Str
  | none, [] => []
  | some _, [] => [replacement]
  | none, b :: bs => (startByte b).1 ++ decodeUtf8 (startByte b).2 bs
  | some p, b :: bs =>
      if p.low ≤ b ∧ b ≤ p.high then
        let bits := p.bits * 64 + (b - 0x80)
        if p.owed ≤ 1 then Char.ofNat bits :: decodeUtf8 none bs
        else decodeUtf8 (some { bits := bits, owed := p.owed - 1 }) bs
      else replacement :: (startByte b).1 ++ decodeUtf8 (startByte b).2 bs

theorem decodeUtf8_ascii (bs : List ℕ) (h : ∀ b ∈ bs, b < 0x80) :
    decodeUtf8 none bs = bs.map Char.ofNat := by
  induction bs with
  | nil => rfl
  | cons b bs ih =>
    have hb : b < 0x80 := h b (by simp)
    have hstart : startByte b = ([Char.ofNat b], none) := by simp [startByte, hb]
    rw [decodeUtf8, hstart, ih fun x hx => h x (by simp [hx])]
    rfl

/-! ## `unquote` -/

/-- The value of a hexadecimal digit. -/
def hexDigit (c : Char) : Option ℕ :=
  if '0' ≤ c ∧ c ≤ '9' then some (c.toNat - 48)
  else if 'A' ≤ c ∧ c ≤ 'F' then some (c.toNat - 55)
  else if 'a' ≤ c ∧ c ≤ 'f' then some (c.toNat - 87)
  else none

/-- The byte two characters after a `%` stand for. -/
def escape (a b : Char) : Option ℕ :=
  match hexDigit a, hexDigit b with
  | some x, some y => some (16 * x + y)
  | _, _ => none

/-- A character as the bytes of its run, or as itself where it is not ASCII. -/
def plainToken (c : Char) : ℕ ⊕ Char := if c.toNat < 128 then .inl c.toNat else .inr c

/-- A text as bytes and the characters that are not ASCII. -/
def tokens : Str → List (ℕ ⊕ Char)
  | '%' :: a :: b :: s =>
      match escape a b with
      | some byte => .inl byte :: tokens s
      | none => plainToken '%' :: tokens (a :: b :: s)
  | c :: s => plainToken c :: tokens s
  | [] => []

theorem tokens_length_le (s : Str) : (tokens s).length ≤ s.length := by
  induction s using tokens.induct with
  | case1 a b s byte hescape ih =>
    simp only [tokens, hescape, List.length_cons]
    omega
  | case2 a b s hescape ih => simpa [tokens, hescape] using ih
  | case3 c s hno ih =>
    rw [tokens]
    · simpa using ih
    · exact hno
  | case4 => simp [tokens]

/-- Each run of bytes decoded by itself; `run` is the one being read. -/
def decodeRuns : List ℕ → List (ℕ ⊕ Char) → Str
  | run, [] => decodeUtf8 none run
  | run, .inl b :: ts => decodeRuns (run ++ [b]) ts
  | run, .inr c :: ts => decodeUtf8 none run ++ c :: decodeRuns [] ts

theorem decodeRuns_plain (run : List ℕ) (s : Str) (h : ∀ b ∈ run, b < 0x80) :
    decodeRuns run (s.map plainToken) = run.map Char.ofNat ++ s := by
  induction s generalizing run with
  | nil => simp [decodeRuns, decodeUtf8_ascii run h]
  | cons c s ih =>
    by_cases hc : c.toNat < 128
    · have hrun : ∀ b ∈ run ++ [c.toNat], b < 0x80 := by
        intro b hb
        rcases List.mem_append.mp hb with hb | hb
        · exact h b hb
        · rw [List.mem_singleton.mp hb]
          exact hc
      simp [plainToken, hc, decodeRuns, ih _ hrun, Char.ofNat_toNat]
    · simp [plainToken, hc, decodeRuns, ih [] (by simp), decodeUtf8_ascii run h]

/-- `urllib.parse.unquote(s, errors="replace")`. -/
def unquote (s : Str) : Str := decodeRuns [] (tokens s)

/-- Whether a `%` stands before two hexadecimal digits. -/
def hasEscape : Str → Bool
  | '%' :: a :: b :: s => (escape a b).isSome || hasEscape (a :: b :: s)
  | _ :: s => hasEscape s
  | [] => false

theorem tokens_plain {s : Str} (h : hasEscape s = false) : tokens s = s.map plainToken := by
  induction s using tokens.induct with
  | case1 a b s byte hescape ih => simp [hasEscape, hescape] at h
  | case2 a b s hescape ih =>
    have htail : hasEscape (a :: b :: s) = false := by simpa [hasEscape, hescape] using h
    simp only [tokens, hescape, ih htail, List.map_cons]
  | case3 c s hno ih =>
    rw [hasEscape] at h
    · rw [tokens]
      · rw [ih h, List.map_cons]
      · exact hno
    · exact hno
  | case4 => rfl

/-! ## `parse_qsl` -/

/-- `s.replace("+", " ")`. -/
def plusToSpace (s : Str) : Str := s.map fun c => if c = '+' then ' ' else c

def unquotePlus (s : Str) : Str := unquote (plusToSpace s)

/-- One `name=value`; what has no `=` is a name with a blank value. -/
def parsePair (piece : Str) : Str × Str :=
  (unquotePlus (piece.takeWhile (· ≠ '=')), unquotePlus ((piece.dropWhile (· ≠ '=')).drop 1))

/-- `parse_qsl(qs, keep_blank_values=True)`. -/
def parseQsl (qs : Str) : List (Str × Str) :=
  ((qs.splitOn '&').filter (· ≠ [])).map parsePair

example : parseQsl "a=1%2b+x&b&&c=%c3%A9=%e2%82".toList =
    [(['a'], "1+ x".toList), (['b'], []), (['c'], "é=\ufffd".toList)] := by decide +kernel

/-- `"&".join(f"{k}={v}" for k, v in pairs)`. -/
def joinPairs (pairs : List (Str × Str)) : Str :=
  List.intercalate ['&'] (pairs.map fun (k, v) => k ++ '=' :: v)

/-! ## `urlencode` -/

/-- The bytes of a character in UTF-8. -/
def encodeChar (c : Char) : List ℕ :=
  let n := c.toNat
  if n < 0x80 then [n]
  else if n < 0x800 then [0xc0 + n / 64, 0x80 + n % 64]
  else if n < 0x10000 then [0xe0 + n / 4096, 0x80 + n / 64 % 64, 0x80 + n % 64]
  else [0xf0 + n / 262144, 0x80 + n / 4096 % 64, 0x80 + n / 64 % 64, 0x80 + n % 64]

def encodeUtf8 (s : Str) : List ℕ := s.flatMap encodeChar

/-- An upper-case hexadecimal digit. -/
def hexChar (n : ℕ) : Char := Char.ofNat (if n < 10 then 48 + n else 55 + n)

/-- What `quote` leaves as it is. -/
def isUnreserved (b : ℕ) : Bool :=
  let c := Char.ofNat b
  b < 128 && (c.isAlphanum || c == '_' || c == '.' || c == '-' || c == '~')

/-- A byte in `quote_plus`. -/
def quoteByte (b : ℕ) : Str :=
  if isUnreserved b then [Char.ofNat b]
  else if b = 32 then ['+']
  else ['%', hexChar (b / 16), hexChar (b % 16)]

def quotePlus (s : Str) : Str := (encodeUtf8 s).flatMap quoteByte

/-- `urlencode(pairs)`. -/
def urlencode (pairs : List (Str × Str)) : Str :=
  joinPairs (pairs.map fun (k, v) => (quotePlus k, quotePlus v))

/-! ## A `QueryDict` -/

/-- The pairs of a query string, in their order; a name may stand in it more than once. -/
abbrev QueryDict := List (Str × Str)

/-- `q.getlist(name)`. -/
def QueryDict.getlist (q : QueryDict) (name : Str) : List Str :=
  (q.filter fun entry => entry.1 = name).map Prod.snd

/-- `q.get(name, "")`: the last of the values. -/
def QueryDict.get (q : QueryDict) (name : Str) : Str := ((q.getlist name).getLast?).getD []

/-- `q[name] = value`. -/
def QueryDict.set (q : QueryDict) (name value : Str) : QueryDict :=
  if name ∈ q.map Prod.fst then q.map fun e => if e.1 = name then (name, value) else e
  else q ++ [(name, value)]

/-- `q.items()`: each name with its last value. -/
def QueryDict.items (q : QueryDict) : List (Str × Str) :=
  (q.map Prod.fst).eraseDups.map fun name => (name, q.get name)

end CwStation.Urlencoded
