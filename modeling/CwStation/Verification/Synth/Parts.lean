import CwStation.Model.Synth
import CwStation.Verification.Morse.Rendering
import Mathlib.Data.List.Forall2
import Mathlib.Tactic.Linarith

/-! # The key runs of a message

The runs of a keyed message from its first mark to its last, named by what they stand
for, and what it means that runs heard off the air fit them. -/

namespace CwStation.Synth

open Morse (ElementKind Code Symbol)

/-- What a key run stands for. -/
inductive Part
  | mark (k : ElementKind)
  | elementGap
  | charGap
  | wordGap
  deriving DecidableEq

def codeParts : Code → List Part
  | [] => []
  | [k] => [.mark k]
  | k :: ks => .mark k :: .elementGap :: codeParts ks

def gapPart (word : Bool) : Part := if word then .wordGap else .charGap

/-- The parts behind a character; `word` says whether a word gap has been met. -/
def partsAfter : Bool → List Symbol → List Part
  | _, [] => []
  | _, .wordGap :: symbols => partsAfter true symbols
  | word, .code code :: symbols => gapPart word :: (codeParts code ++ partsAfter false symbols)

/-- The parts of a message from its first mark on. -/
def parts : List Symbol → List Part
  | [] => []
  | .wordGap :: symbols => parts symbols
  | .code code :: symbols => codeParts code ++ partsAfter false symbols

/-! ## The runs of `keyRuns` -/

/-- The runs up to the last mark, behind a gap of length `gap`. -/
def front (unit : ℚ) : ℚ → List Symbol → List (Bool × ℚ)
  | _, [] => []
  | gap, .wordGap :: symbols => front unit (gap + 4 * unit) symbols
  | gap, .code code :: symbols =>
      (false, gap) :: (elementSegments unit code ++ front unit (3 * unit) symbols)

/-- The length of the gap behind the last mark. -/
def trailing (unit : ℚ) : ℚ → List Symbol → ℚ
  | gap, [] => gap
  | gap, .wordGap :: symbols => trailing unit (gap + 4 * unit) symbols
  | _, .code _ :: symbols => trailing unit (3 * unit) symbols

theorem prepend_prepend (on : Bool) (x y : ℚ) (runs : List (Bool × ℚ)) :
    prepend (on, x) (prepend (on, y) runs) = prepend (on, x + y) runs := by
  cases runs with
  | nil => simp [prepend]
  | cons run runs =>
    by_cases h : on = run.1
    · simp [prepend, h, add_assoc]
    · simp [prepend, h]

theorem prepend_of_head {on : Bool} {x : ℚ} {runs : List (Bool × ℚ)}
    (h : ∀ r ∈ runs.head?, r.1 ≠ on) : prepend (on, x) runs = (on, x) :: runs := by
  cases runs with
  | nil => rfl
  | cons run runs =>
    have hne : ¬ on = run.1 := fun heq => h run (by simp) heq.symm
    simp [prepend, hne]

theorem foldr_elementSegments (unit : ℚ) {code : Code} (hne : code ≠ []) {runs : List (Bool × ℚ)}
    (hruns : ∀ r ∈ runs.head?, r.1 = false) :
    (elementSegments unit code).foldr prepend runs = elementSegments unit code ++ runs ∧
      ∀ r ∈ ((elementSegments unit code).foldr prepend runs).head?, r.1 = true := by
  induction code with
  | nil => exact absurd rfl hne
  | cons el els ih =>
    cases els with
    | nil =>
      cases runs with
      | nil => simp [elementSegments, prepend]
      | cons r runs =>
        have hr : r.1 = false := hruns r (by simp)
        simp [elementSegments, prepend, hr]
    | cons el' els =>
      obtain ⟨heq, -⟩ := ih (by simp)
      have hhead : ∃ x rest, elementSegments unit (el' :: els) = (true, x) :: rest := by
        cases els with
        | nil => exact ⟨_, _, rfl⟩
        | cons => exact ⟨_, _, rfl⟩
      obtain ⟨x, rest, hx⟩ := hhead
      simp only [elementSegments, List.foldr_cons, List.cons_append, heq]
      simp [hx, prepend]

theorem front_append_head (unit gap last : ℚ) (symbols : List Symbol) :
    ∀ r ∈ (front unit gap symbols ++ [(false, last)]).head?, r.1 = false := by
  induction symbols generalizing gap with
  | nil => simp [front]
  | cons symbol symbols ih =>
    cases symbol with
    | wordGap => exact ih (gap + 4 * unit)
    | code code => simp [front]

theorem foldr_segments (unit lead gap : ℚ) {symbols : List Symbol}
    (hcodes : ∀ code, Symbol.code code ∈ symbols → code ≠ []) :
    ((false, gap) :: (symbols.flatMap (symbolSegments unit) ++ [(false, lead)])).foldr prepend [] =
      front unit gap symbols ++ [(false, trailing unit gap symbols + lead)] := by
  induction symbols generalizing gap with
  | nil => simp [front, trailing, prepend]
  | cons symbol symbols ih =>
    have hrest : ∀ code, Symbol.code code ∈ symbols → code ≠ [] :=
      fun code hcode => hcodes code (List.mem_cons_of_mem _ hcode)
    cases symbol with
    | wordGap =>
      have hih := ih (gap + 4 * unit) hrest
      simp only [List.foldr_cons] at hih
      simp only [List.flatMap_cons, symbolSegments, List.cons_append, List.nil_append,
        List.foldr_cons, prepend_prepend]
      exact hih
    | code code =>
      -- the elements stand between two gaps, so no run of theirs is lengthened
      obtain ⟨helements, hhead⟩ := foldr_elementSegments unit
        (hcodes code List.mem_cons_self) (front_append_head unit (3 * unit)
          (trailing unit (3 * unit) symbols + lead) symbols)
      simp only [List.flatMap_cons, symbolSegments, List.append_assoc, List.cons_append,
        List.nil_append, List.foldr_cons, List.foldr_append]
      have hih := ih (3 * unit) hrest
      simp only [List.foldr_cons, List.foldr_append] at hih
      rw [List.foldr_nil] at hih ⊢
      rw [hih, prepend_of_head (fun r hr => by simp [hhead r hr]), helements]
      simp [front, trailing]

/-- The runs from the first mark to the last one. -/
def sounded (unit lead : ℚ) (symbols : List Symbol) : List (Bool × ℚ) :=
  (keyRuns unit lead symbols).tail.dropLast

theorem sounded_eq (unit lead : ℚ) {symbols : List Symbol}
    (hcodes : ∀ code, Symbol.code code ∈ symbols → code ≠ []) :
    sounded unit lead symbols = (front unit lead symbols).tail := by
  rw [sounded, keyRuns, segments, foldr_segments unit lead lead hcodes]
  cases front unit lead symbols with
  | nil => rfl
  | cons run runs => simp

/-! ## Runs with timing errors -/

/-- A run heard for a nominal one: marks and gaps below a word gap are off by a sixth at
most, and a word gap is not shorter than five sixths of seven units. -/
def Within (unit : ℚ) (nominal heard : Bool × ℚ) : Prop :=
  heard.1 = nominal.1 ∧
    if nominal.1 = false ∧ 7 * unit ≤ nominal.2 then 7 * unit * (1 - 1 / 6) ≤ heard.2
    else |heard.2 - nominal.2| ≤ 1 / 6 * nominal.2

/-- Off by a sixth at most. -/
def Near (nominal x : ℚ) : Prop := 5 / 6 * nominal ≤ x ∧ x ≤ 7 / 6 * nominal

/-- A run that can stand for a part. -/
def Part.Fits (unit : ℚ) (run : Bool × ℚ) : Part → Prop
  | .mark k => run.1 = true ∧ Near (elementLength unit k) run.2
  | .elementGap => run.1 = false ∧ Near unit run.2
  | .charGap => run.1 = false ∧ Near (3 * unit) run.2
  | .wordGap => run.1 = false ∧ 35 / 6 * unit ≤ run.2

/-- The nominal run of a part. -/
def Part.Nominal (unit : ℚ) (run : Bool × ℚ) : Part → Prop
  | .mark k => run = (true, elementLength unit k)
  | .elementGap => run = (false, unit)
  | .charGap => run = (false, 3 * unit)
  | .wordGap => run.1 = false ∧ 7 * unit ≤ run.2

theorem near_of_abs {nominal x : ℚ} (h : |x - nominal| ≤ 1 / 6 * nominal) : Near nominal x := by
  rw [abs_le] at h
  exact ⟨by linarith, by linarith⟩

theorem Part.Nominal.fits {unit : ℚ} (hu : 0 < unit) {p : Part} {nominal heard : Bool × ℚ}
    (hp : p.Nominal unit nominal) (h : Within unit nominal heard) : p.Fits unit heard := by
  obtain ⟨hon, hlen⟩ := h
  cases p with
  | mark k =>
    rw [hp] at hon hlen
    rw [if_neg (by simp)] at hlen
    exact ⟨hon, near_of_abs hlen⟩
  | elementGap =>
    rw [hp] at hon hlen
    rw [if_neg (by simp only [true_and, not_le]; linarith)] at hlen
    exact ⟨hon, near_of_abs hlen⟩
  | charGap =>
    rw [hp] at hon hlen
    rw [if_neg (by simp only [true_and, not_le]; linarith)] at hlen
    exact ⟨hon, near_of_abs hlen⟩
  | wordGap =>
    have hword : nominal.1 = false ∧ 7 * unit ≤ nominal.2 := hp
    rw [if_pos hword] at hlen
    exact ⟨hon.trans hword.1, by linarith⟩

theorem codeParts_nominal (unit : ℚ) (code : Code) :
    List.Forall₂ (fun p run => Part.Nominal unit run p) (codeParts code)
      (elementSegments unit code) := by
  induction code with
  | nil => exact .nil
  | cons el els ih =>
    cases els with
    | nil => exact .cons rfl .nil
    | cons el' els => exact .cons rfl (.cons rfl ih)

theorem partsAfter_nominal {unit : ℚ} (hu : 0 < unit) {gap : ℚ} {word : Bool}
    (hgap : (gapPart word).Nominal unit (false, gap)) (symbols : List Symbol) :
    List.Forall₂ (fun p run => Part.Nominal unit run p) (partsAfter word symbols)
      (front unit gap symbols) := by
  induction symbols generalizing gap word with
  | nil => exact .nil
  | cons symbol symbols ih =>
    cases symbol with
    | wordGap =>
      refine @ih _ true ⟨rfl, ?_⟩
      cases word with
      | false =>
        obtain rfl : gap = 3 * unit := congrArg Prod.snd hgap
        linarith
      | true =>
        have hlen : 7 * unit ≤ gap := hgap.2
        change 7 * unit ≤ gap + 4 * unit
        linarith
    | code code =>
      exact .cons hgap (List.rel_append (codeParts_nominal unit code) (ih rfl))

theorem parts_nominal {unit : ℚ} (hu : 0 < unit) (gap : ℚ) (symbols : List Symbol) :
    List.Forall₂ (fun p run => Part.Nominal unit run p) (parts symbols)
      (front unit gap symbols).tail := by
  induction symbols generalizing gap with
  | nil => exact .nil
  | cons symbol symbols ih =>
    cases symbol with
    | wordGap => exact ih (gap + 4 * unit)
    | code code =>
      have hgap : (gapPart false).Nominal unit (false, 3 * unit) := rfl
      exact List.rel_append (codeParts_nominal unit code) (partsAfter_nominal hu hgap symbols)

/-- Runs heard for the runs of a message fit the parts of the message. -/
theorem parts_fit {unit lead : ℚ} (hu : 0 < unit) {symbols : List Symbol}
    {runs : List (Bool × ℚ)} (hcodes : ∀ code, Symbol.code code ∈ symbols → code ≠ [])
    (h : List.Forall₂ (Within unit) (sounded unit lead symbols) runs) :
    List.Forall₂ (fun p run => Part.Fits unit run p) (parts symbols) runs := by
  rw [sounded_eq unit lead hcodes] at h
  have hparts := parts_nominal hu lead symbols
  generalize (front unit lead symbols).tail = nominal at h hparts
  generalize parts symbols = ps at hparts ⊢
  induction hparts generalizing runs with
  | nil =>
    cases h
    exact .nil
  | cons hp _ ih =>
    cases h with
    | cons hw hrest => exact .cons (hp.fits hu hw) (ih hrest)

end CwStation.Synth
