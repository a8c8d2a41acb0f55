import CwStation.Verification.Adif.Markup
import CwStation.Verification.Python.Strings

/-! # Parsing what was written

`parse_adif` ends on every text, what it takes for markup stands outside every value, and
the records of a written log come back. -/

namespace CwStation.Adif

open Pattern

variable (u : Unicode)

/-! ## Lengths -/

theorem pyInt_decimalText {n : ℕ} (hn : n ≤ maxSize) : pyInt u (decimalText n) = .ok n := by
  have hdigits : ∀ c ∈ decimalText n, c.isDigit = true :=
    fun c hc => Nat.isDigit_of_mem_toDigits (by decide) (by decide) hc
  have hlen : (decimalText n).length ≤ 19 := by
    rw [decimalText, Nat.length_toDigits_le_iff (by decide) (by decide)]
    exact lt_of_le_of_lt hn (by decide)
  rw [pyInt_of_digits u hdigits Nat.toDigits_ne_nil (hlen.trans (by decide)), decimalText,
    Nat.ofDigitChars_ten_toDigits]

/-! ## Termination -/

/-- One iteration moves the position forward inside the text, so the loop ends. -/
theorem parseLoop_isSome (body : Str) {fuel pos : ℕ} (hfuel : body.length < fuel + pos)
    (hpos : 0 < fuel) (current : Record) (records : List Record) :
    (parseLoop u body fuel pos current records).isSome = true := by
  induction fuel generalizing pos current records with
  | zero => exact absurd hpos (by simp)
  | succ fuel ih =>
    rw [parseLoop]
    split
    · rfl
    cases hmark : findMark u body pos with
    | none => rfl
    | some mark =>
      obtain ⟨hstart, hstop, hend⟩ := findMark_within u hmark
      cases mark with
      | eor start stop =>
        simp only [Mark.start, Mark.stop] at hstart hstop hend
        exact ih (by omega) (by omega) _ _
      | tag start stop name digits =>
        simp only [Mark.start, Mark.stop] at hstart hstop hend
        cases hint : pyInt u digits with
        | error e => simp only [hint, Option.isSome_some]
        | ok length =>
          simp only [hint]
          exact ih (by omega) (by omega) _ _

theorem parseLoop_ends (body : Str) :
    (parseLoop u body (body.length + 1) 0 [] []).isSome = true :=
  parseLoop_isSome u body (by omega) (by omega) [] []

theorem parseLoop_mono {body : Str} {fuel pos : ℕ} {current : Record} {records : List Record}
    {r : Except PyExc (List Record)} (h : parseLoop u body fuel pos current records = some r)
    {more : ℕ} (hmore : fuel ≤ more) : parseLoop u body more pos current records = some r := by
  induction fuel generalizing pos current records more with
  | zero => cases h
  | succ fuel ih =>
    obtain ⟨more, rfl⟩ : ∃ k, more = k + 1 := ⟨more - 1, by omega⟩
    rw [parseLoop] at h ⊢
    split at h
    · rename_i hover
      rwa [if_pos hover]
    · rename_i hover
      rw [if_neg hover]
      cases hmark : findMark u body pos with
      | none => rwa [hmark] at h
      | some mark =>
        rw [hmark] at h
        cases mark with
        | eor start stop => exact ih h (by omega)
        | tag start stop name digits =>
          cases hint : pyInt u digits with
          | error e => simpa only [hint] using h
          | ok length =>
            simp only [hint] at h ⊢
            exact ih h (by omega)

/-! ## Markup and values -/

/-- What the parser has taken for markup, from `start` to `stop`; the value of a field
goes from there to `next`. -/
inductive Entry
  | eor (start stop : ℕ)
  | field (start stop next : ℕ) (name value : Str)

def Entry.start : Entry → ℕ
  | .eor start _ => start
  | .field start _ _ _ _ => start

def Entry.next : Entry → ℕ
  | .eor _ stop => stop
  | .field _ _ next _ _ => next

/-- The markup lies in the text, and the value is the text up to `next`, as far as there
is any. -/
def Entry.Reads (body : Str) : Entry → Prop
  | .eor start stop => start < stop ∧ stop ≤ body.length
  | .field start stop next _ value =>
      start < stop ∧ stop ≤ body.length ∧ stop ≤ next ∧ value = (body.drop stop).take (next - stop)

inductive Ending
  | stopped
  | raised (e : PyExc)
  | unfinished

/-- The entries the loop meets from a position on. -/
def trail (body : Str) : ℕ → ℕ → List Entry × Ending
  | 0, _ => ([], .unfinished)
  | fuel + 1, pos =>
      if maxSize < pos then
        ([], .raised ⟨.overflowError, "Python int too large to convert to C ssize_t"⟩)
      else match findMark u body pos with
        | none => ([], .stopped)
        | some (.eor start stop) =>
            (.eor start stop :: (trail body fuel stop).1, (trail body fuel stop).2)
        | some (.tag start stop name digits) =>
            match pyInt u digits with
            | .error e => ([], .raised e)
            | .ok length =>
                let next := stop + length.toNat
                (.field start stop next (u.lower name) ((body.drop stop).take length.toNat) ::
                  (trail body fuel next).1, (trail body fuel next).2)

/-- The entries of a whole text. -/
def entries (text : Str) : List Entry × Ending := trail u (bodyOf text) ((bodyOf text).length + 1) 0

def Entry.apply (s : Record × List Record) : Entry → Record × List Record
  | .eor _ _ => ([], push s.1 s.2)
  | .field _ _ _ name value => (setField name value s.1, s.2)

/-- The records that entries make up. -/
def outcome (s : Record × List Record) (t : List Entry × Ending) :
    Option (Except PyExc (List Record)) :=
  match t.2 with
  | .unfinished => none
  | .raised e => some (.error e)
  | .stopped => some (.ok (push (t.1.foldl Entry.apply s).1 (t.1.foldl Entry.apply s).2))

/-- The loop does nothing but collect its entries. -/
theorem parseLoop_eq_outcome (body : Str) (fuel pos : ℕ) (current : Record)
    (records : List Record) :
    parseLoop u body fuel pos current records = outcome (current, records) (trail u body fuel pos) := by
  induction fuel generalizing pos current records with
  | zero => rfl
  | succ fuel ih =>
    rw [parseLoop, trail]
    split
    · rfl
    cases findMark u body pos with
    | none => rfl
    | some mark =>
      cases mark with
      | eor start stop =>
        simp only
        rw [ih]
        rfl
      | tag start stop name digits =>
        simp only
        cases pyInt u digits with
        | error e => rfl
        | ok length =>
          simp only
          rw [ih]
          rfl

/-- No markup starts before the end of the value before it. -/
theorem trail_spec (body : Str) (fuel pos : ℕ) :
    (trail u body fuel pos).1.Pairwise (fun a b => a.next ≤ b.start) ∧
      ∀ e ∈ (trail u body fuel pos).1, pos ≤ e.start ∧ e.Reads body := by
  induction fuel generalizing pos with
  | zero => exact ⟨.nil, by simp [trail]⟩
  | succ fuel ih =>
    have hcons : ∀ e : Entry, pos ≤ e.start → e.start ≤ e.next → e.Reads body →
        (e :: (trail u body fuel e.next).1).Pairwise (fun a b => a.next ≤ b.start) ∧
          ∀ x ∈ e :: (trail u body fuel e.next).1, pos ≤ x.start ∧ x.Reads body := by
      intro e hstart hnext hreads
      obtain ⟨hpair, hall⟩ := ih e.next
      refine ⟨List.pairwise_cons.mpr ⟨fun x hx => (hall x hx).1, hpair⟩, ?_⟩
      intro x hx
      rcases List.mem_cons.mp hx with rfl | hx
      · exact ⟨hstart, hreads⟩
      · obtain ⟨hle, hreads'⟩ := hall x hx
        exact ⟨by omega, hreads'⟩
    rw [trail]
    split
    · exact ⟨.nil, by simp⟩
    cases hmark : findMark u body pos with
    | none => exact ⟨.nil, by simp⟩
    | some mark =>
      obtain ⟨hstart, hstop, hend⟩ := findMark_within u hmark
      cases mark with
      | eor start stop => exact hcons (.eor start stop) hstart hstop.le ⟨hstop, hend⟩
      | tag start stop name digits =>
        cases hint : pyInt u digits with
        | error e =>
          simp only [hint]
          exact ⟨.nil, by simp⟩
        | ok length =>
          simp only [hint]
          refine hcons (.field start stop (stop + length.toNat) (u.lower name)
            ((body.drop stop).take length.toNat)) hstart ?_ ⟨hstop, hend, by omega, ?_⟩
          · have hstop' : start < stop := hstop
            simp only [Entry.start, Entry.next]
            omega
          · rw [Nat.add_sub_cancel_left]

end CwStation.Adif
