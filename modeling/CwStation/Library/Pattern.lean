import Mathlib.Data.List.Basic
import Mathlib.Data.List.Infix
import Mathlib.Data.List.TakeWhile
import Mathlib.Tactic.Common

/-! # Backtracking patterns

The fragment of regular expressions made of character classes, greedy repetitions of a
class, concatenation, an optional part, capturing groups and word boundaries. `ways`
lists all matches at a position in the order in which a backtracking matcher tries
them, so that its head is the match the matcher reports. -/

namespace CwStation.Pattern

variable {α : Type*}

inductive Pat (α : Type*)
  | one (p : α → Bool)
  /-- `p{lo,hi}`, greedy; without an upper bound when `hi` is `none`. -/
  | many (p : α → Bool) (lo : ℕ) (hi : Option ℕ)
  | seq (a b : Pat α)
  | opt (a : Pat α)
  | group (a : Pat α)
  /-- `\b` for the word characters `w`. -/
  | boundary (w : α → Bool)

/-- A match at the front of a text: what it consumed, what is left, what it captured. -/
structure Match (α : Type*) where
  text : List α
  rest : List α
  groups : List (List α)

/-- The character before the position reached by consuming `text` after `prev`. -/
def after (prev : Option α) (text : List α) : Option α := text.getLast?.or prev

theorem after_append (prev : Option α) (x y : List α) :
    after prev (x ++ y) = after (after prev x) y := by
  cases h : y.getLast? with
  | none =>
    rw [List.getLast?_eq_none_iff] at h
    simp [after, h]
  | some c => simp [after, List.getLast?_append, h]

theorem after_any_of_forall {w : α → Bool} {x : List α} (hne : x ≠ [])
    (hx : ∀ c ∈ x, w c = true) (prev : Option α) : (after prev x).any w = true := by
  have hlast := hx _ (List.getLast_mem hne)
  simp [after, List.getLast?_eq_getLast_of_ne_nil hne, hlast]

/-- The greatest number of repetitions a greedy class can take. -/
def reach (p : α → Bool) (hi : Option ℕ) (s : List α) : ℕ :=
  match hi with
  | none => (s.takeWhile p).length
  | some h => min (s.takeWhile p).length h

def ways : Pat α → Option α → List α → List (Match α)
  | .one p, _, s =>
      match s with
      | [] => []
      | c :: cs => if p c then [⟨[c], cs, []⟩] else []
  | .many p lo hi, _, s =>
      (List.range' lo (reach p hi s + 1 - lo)).reverse.map fun n => ⟨s.take n, s.drop n, []⟩
  | .seq a b, prev, s =>
      (ways a prev s).flatMap fun m =>
        (ways b (after prev m.text) m.rest).map fun n =>
          ⟨m.text ++ n.text, n.rest, m.groups ++ n.groups⟩
  | .opt a, prev, s => ways a prev s ++ [⟨[], s, []⟩]
  | .group a, prev, s => (ways a prev s).map fun m => { m with groups := m.text :: m.groups }
  | .boundary w, prev, s => if prev.any w != s.head?.any w then [⟨[], s, []⟩] else []

/-- The match a backtracking matcher reports at a position. -/
def matchAt (p : Pat α) (prev : Option α) (s : List α) : Option (Match α) := (ways p prev s).head?

/-- The leftmost match, with the text skipped to reach it. -/
def search (p : Pat α) : Option α → List α → Option (List α × Match α)
  | prev, [] => (matchAt p prev []).map fun m => ([], m)
  | prev, c :: cs =>
      match matchAt p prev (c :: cs) with
      | some m => some ([], m)
      | none => (search p (some c) cs).map fun r => (c :: r.1, r.2)

/-- The matches that do not overlap, from left to right, of a pattern that consumes at
least one character. The counter is the rest of the last match. -/
def findallFrom (p : Pat α) : ℕ → Option α → List α → List (Match α)
  | _, _, [] => []
  | skip + 1, _, c :: cs => findallFrom p skip (some c) cs
  | 0, prev, c :: cs =>
      match matchAt p prev (c :: cs) with
      | some m => m :: findallFrom p (m.text.length - 1) (some c) cs
      | none => findallFrom p 0 (some c) cs

/-- `findall` of a pattern with one capturing group. -/
def findall (p : Pat α) (s : List α) : List (List α) :=
  (findallFrom p 0 none s).map fun m => m.groups.headD []

/-- `fullmatch`: some way of matching consumes the whole text. -/
def fullmatch (p : Pat α) (s : List α) : Bool := (ways p none s).any fun m => m.rest.isEmpty

/-! ## The matches of each form -/

section equations

variable (p w : α → Bool) (a b : Pat α) (prev : Option α) (s : List α)

theorem ways_one_nil : ways (.one p) prev [] = [] := rfl

theorem ways_one_cons (c : α) :
    ways (.one p) prev (c :: s) = if p c then [⟨[c], s, []⟩] else [] := rfl

theorem ways_many (lo : ℕ) (hi : Option ℕ) : ways (.many p lo hi) prev s =
    (List.range' lo (reach p hi s + 1 - lo)).reverse.map fun n => ⟨s.take n, s.drop n, []⟩ := rfl

theorem ways_seq : ways (.seq a b) prev s = (ways a prev s).flatMap fun m =>
    (ways b (after prev m.text) m.rest).map fun n =>
      ⟨m.text ++ n.text, n.rest, m.groups ++ n.groups⟩ := rfl

theorem ways_opt : ways (.opt a) prev s = ways a prev s ++ [⟨[], s, []⟩] := rfl

theorem ways_group : ways (.group a) prev s =
    (ways a prev s).map fun m => { m with groups := m.text :: m.groups } := rfl

theorem ways_boundary : ways (.boundary w) prev s =
    if prev.any w != s.head?.any w then [⟨[], s, []⟩] else [] := rfl

end equations

theorem mem_ways_one {p : α → Bool} {prev : Option α} {s : List α} {m : Match α} :
    m ∈ ways (.one p) prev s ↔ ∃ c, p c = true ∧ s = c :: m.rest ∧ m.text = [c] ∧ m.groups = [] := by
  obtain ⟨text, rest, groups⟩ := m
  cases s with
  | nil => simp [ways_one_nil]
  | cons c cs =>
    by_cases hc : p c = true
    · simp only [ways_one_cons, hc, ite_true, List.mem_singleton, Match.mk.injEq, List.cons.injEq]
      constructor
      · rintro ⟨rfl, rfl, rfl⟩
        exact ⟨c, hc, ⟨rfl, rfl⟩, rfl, rfl⟩
      · rintro ⟨c', -, ⟨rfl, rfl⟩, rfl, rfl⟩
        exact ⟨rfl, rfl, rfl⟩
    · simp only [ways_one_cons, hc, Bool.false_eq_true, ite_false, List.not_mem_nil,
        List.cons.injEq, false_iff, not_exists, not_and]
      rintro c' hc' ⟨rfl, -⟩
      exact absurd hc' hc

theorem mem_ways_many {p : α → Bool} {lo : ℕ} {hi : Option ℕ} {prev : Option α} {s : List α}
    {m : Match α} :
    m ∈ ways (.many p lo hi) prev s ↔ m.text ++ m.rest = s ∧ (∀ c ∈ m.text, p c = true) ∧
      lo ≤ m.text.length ∧ (∀ h ∈ hi, m.text.length ≤ h) ∧ m.groups = [] := by
  obtain ⟨text, rest, groups⟩ := m
  have hreach : ∀ n, n ≤ reach p hi s ↔ n ≤ (s.takeWhile p).length ∧ ∀ h ∈ hi, n ≤ h := by
    intro n
    cases hi with
    | none => simp [reach]
    | some h =>
      rw [reach, Nat.le_min]
      simp
  simp only [ways_many, List.mem_map, List.mem_reverse, List.mem_range'_1, Match.mk.injEq]
  constructor
  · rintro ⟨n, ⟨hlo, hn⟩, rfl, rfl, rfl⟩
    obtain ⟨hn', hhi⟩ := (hreach n).mp (by omega)
    have hlen : n ≤ s.length := hn'.trans (List.takeWhile_prefix p).length_le
    have htake : s.take n = (s.takeWhile p).take n := by
      conv_lhs => rw [← List.takeWhile_append_dropWhile (p := p) (l := s)]
      rw [List.take_append_of_le_length hn']
    refine ⟨List.take_append_drop n s, ?_, ?_, ?_, rfl⟩
    · intro c hc
      rw [htake] at hc
      exact List.mem_takeWhile_imp (List.mem_of_mem_take hc)
    · rw [List.length_take, Nat.min_eq_left hlen]
      exact hlo
    · rw [List.length_take, Nat.min_eq_left hlen]
      exact hhi
  · rintro ⟨rfl, hall, hlo, hhi, rfl⟩
    have hle : text.length ≤ reach p hi (text ++ rest) := by
      refine (hreach _).mpr ⟨?_, hhi⟩
      rw [List.takeWhile_append_of_pos hall, List.length_append]
      omega
    exact ⟨text.length, ⟨hlo, by omega⟩, by simp, by simp, rfl⟩

theorem mem_ways_seq {a b : Pat α} {prev : Option α} {s : List α} {m : Match α} :
    m ∈ ways (.seq a b) prev s ↔ ∃ x ∈ ways a prev s, ∃ y ∈ ways b (after prev x.text) x.rest,
      m = ⟨x.text ++ y.text, y.rest, x.groups ++ y.groups⟩ := by
  simp only [ways_seq, List.mem_flatMap, List.mem_map]
  constructor
  · rintro ⟨x, hx, y, hy, rfl⟩
    exact ⟨x, hx, y, hy, rfl⟩
  · rintro ⟨x, hx, y, hy, rfl⟩
    exact ⟨x, hx, y, hy, rfl⟩

theorem mem_ways_opt {a : Pat α} {prev : Option α} {s : List α} {m : Match α} :
    m ∈ ways (.opt a) prev s ↔ m ∈ ways a prev s ∨ m = ⟨[], s, []⟩ := by
  simp [ways_opt]

theorem mem_ways_group {a : Pat α} {prev : Option α} {s : List α} {m : Match α} :
    m ∈ ways (.group a) prev s ↔ ∃ x ∈ ways a prev s, m = ⟨x.text, x.rest, x.text :: x.groups⟩ := by
  simp only [ways_group, List.mem_map]
  constructor
  · rintro ⟨x, hx, rfl⟩
    exact ⟨x, hx, rfl⟩
  · rintro ⟨x, hx, rfl⟩
    exact ⟨x, hx, rfl⟩

theorem mem_ways_boundary {w : α → Bool} {prev : Option α} {s : List α} {m : Match α} :
    m ∈ ways (.boundary w) prev s ↔ prev.any w ≠ s.head?.any w ∧ m = ⟨[], s, []⟩ := by
  by_cases h : prev.any w = s.head?.any w
  · simp [ways_boundary, h]
  · simp [ways_boundary, h]

/-- A match is a front of the text. -/
theorem ways_append {p : Pat α} {prev : Option α} {s : List α} {m : Match α}
    (h : m ∈ ways p prev s) : m.text ++ m.rest = s := by
  induction p generalizing prev s m with
  | one p =>
    obtain ⟨c, -, rfl, htext, -⟩ := mem_ways_one.mp h
    rw [htext]
    rfl
  | many p lo hi => exact (mem_ways_many.mp h).1
  | seq a b iha ihb =>
    obtain ⟨x, hx, y, hy, rfl⟩ := mem_ways_seq.mp h
    rw [List.append_assoc, ihb hy, iha hx]
  | opt a ih =>
    rcases List.mem_append.mp h with h | h
    · exact ih h
    · rw [List.mem_singleton.mp h]
      rfl
  | group a ih =>
    obtain ⟨x, hx, rfl⟩ := mem_ways_group.mp h
    have happend := ih hx
    exact happend
  | boundary w =>
    obtain ⟨-, rfl⟩ := mem_ways_boundary.mp h
    rfl

theorem matchAt_mem {p : Pat α} {prev : Option α} {s : List α} {m : Match α}
    (h : matchAt p prev s = some m) : m ∈ ways p prev s :=
  List.mem_of_mem_head? h

theorem matchAt_eq_none {p : Pat α} {prev : Option α} {s : List α} :
    matchAt p prev s = none ↔ ∀ m, m ∉ ways p prev s := by
  rw [matchAt, List.head?_eq_none_iff, List.eq_nil_iff_forall_not_mem]

/-! ## Separators -/

/-- No class of the pattern contains `c`, and `c` is no word character. -/
def Avoids (c : α) : Pat α → Prop
  | .one p => p c = false
  | .many p _ _ => p c = false
  | .seq a b => Avoids c a ∧ Avoids c b
  | .opt a => Avoids c a
  | .group a => Avoids c a
  | .boundary w => w c = false

/-- The same match in a longer text. -/
def Match.extend (t : List α) (m : Match α) : Match α := { m with rest := m.rest ++ t }

theorem takeWhile_append_stop {p : α → Bool} {c : α} (hc : p c = false) (s t : List α) :
    (s ++ c :: t).takeWhile p = s.takeWhile p := by
  induction s with
  | nil => simp [hc]
  | cons d s ih =>
    by_cases hd : p d = true
    · simp [hd, ih]
    · simp [hd]

theorem takeWhile_append_of_head {p : α → Bool} {a b : List α} (ha : ∀ c ∈ a, p c = true)
    (hb : b.head?.any p = false) : (a ++ b).takeWhile p = a := by
  rw [List.takeWhile_append_of_pos ha]
  cases b with
  | nil => simp
  | cons c b => simp [show p c = false from hb]

/-- Matching stops at a separator: what stands behind it makes no difference. -/
theorem ways_append_of_avoids {p : Pat α} {c : α} (h : Avoids c p) (prev : Option α)
    (s t : List α) : ways p prev (s ++ c :: t) = (ways p prev s).map (Match.extend (c :: t)) := by
  induction p generalizing prev s with
  | one p =>
    cases s with
    | nil => simp [ways_one_nil, ways_one_cons, show p c = false from h]
    | cons d s =>
      by_cases hd : p d = true
      · simp [ways_one_cons, hd, Match.extend]
      · simp [ways_one_cons, hd]
  | many p lo hi =>
    have hreach : reach p hi (s ++ c :: t) = reach p hi s := by
      simp only [reach, takeWhile_append_stop h]
    have hle : reach p hi s ≤ s.length := by
      have htake : (s.takeWhile p).length ≤ s.length := (List.takeWhile_prefix p).length_le
      cases hi with
      | none => exact htake
      | some k => exact (Nat.min_le_left _ _).trans htake
    simp only [ways_many, hreach, List.map_map]
    apply List.map_congr_left
    intro n hn
    rw [List.mem_reverse, List.mem_range'_1] at hn
    have hn' : n ≤ s.length := by omega
    simp [Match.extend, List.take_append_of_le_length hn', List.drop_append_of_le_length hn']
  | seq a b iha ihb =>
    simp only [ways_seq, iha h.1, List.flatMap_map, List.map_flatMap, List.map_map]
    apply List.flatMap_congr
    intro m _
    change (ways b (after prev m.text) (m.rest ++ c :: t)).map _ = _
    rw [ihb h.2, List.map_map]
    rfl
  | opt a ih => simp [ways_opt, ih h, Match.extend]
  | group a ih =>
    simp only [ways_group, ih h, List.map_map]
    rfl
  | boundary w =>
    have hhead : (s ++ c :: t).head?.any w = s.head?.any w := by
      cases s with
      | nil => exact h
      | cons d s => rfl
    simp only [ways_boundary, hhead]
    split <;> rfl

theorem findallFrom_append_sep {p : Pat α} {c : α} (h : Avoids c p)
    (hnil : ∀ prev, ways p prev [] = []) {skip : ℕ} {s : List α} (hskip : skip ≤ s.length)
    (prev : Option α) (t : List α) :
    findallFrom p skip prev (s ++ c :: t) =
      (findallFrom p skip prev s).map (Match.extend (c :: t)) ++ findallFrom p 0 (some c) t := by
  induction s generalizing skip prev with
  | nil =>
    obtain rfl : skip = 0 := by simpa using hskip
    have hnone : matchAt p prev (c :: t) = none := by
      have hways := ways_append_of_avoids h prev [] t
      rw [List.nil_append, hnil] at hways
      rw [matchAt, hways]
      rfl
    simp [findallFrom, hnone]
  | cons d s ih =>
    cases skip with
    | succ skip =>
      rw [List.length_cons] at hskip
      simp only [List.cons_append, findallFrom]
      exact ih (by omega) (some d)
    | zero =>
      have hmatch : matchAt p prev (d :: (s ++ c :: t)) =
          (matchAt p prev (d :: s)).map (Match.extend (c :: t)) := by
        have hways := ways_append_of_avoids h prev (d :: s) t
        rw [List.cons_append] at hways
        rw [matchAt, hways, List.head?_map]
        rfl
      simp only [List.cons_append, findallFrom, hmatch]
      cases hm : matchAt p prev (d :: s) with
      | none => exact ih (Nat.zero_le _) (some d)
      | some m =>
        have hlen : m.text.length - 1 ≤ s.length := by
          have := congrArg List.length (ways_append (matchAt_mem hm))
          rw [List.length_append, List.length_cons] at this
          omega
        simp only [Option.map_some, List.map_cons, List.cons_append]
        rw [← ih hlen (some d)]
        rfl

/-- The words before a separator are found whatever follows it. -/
theorem findall_append_sep {p : Pat α} {c : α} (h : Avoids c p)
    (hnil : ∀ prev, ways p prev [] = []) (s t : List α) :
    findall p (s ++ c :: t) =
      findall p s ++ (findallFrom p 0 (some c) t).map fun m => m.groups.headD [] := by
  rw [findall, findallFrom_append_sep h hnil (Nat.zero_le _), List.map_append, List.map_map]
  rfl

/-! ## Matches at every position -/

theorem after_cons (prev : Option α) (c : α) (x : List α) :
    after prev (c :: x) = after (some c) x := by
  cases x with
  | nil => rfl
  | cons d x => simp [after, List.getLast?_cons]

theorem exists_of_mem_findallFrom {p : Pat α} {skip : ℕ} {prev : Option α} {s : List α}
    {m : Match α} (h : m ∈ findallFrom p skip prev s) :
    ∃ x y, s = x ++ y ∧ y ≠ [] ∧ matchAt p (after prev x) y = some m := by
  induction s generalizing skip prev with
  | nil => simp [findallFrom] at h
  | cons c s ih =>
    have hstep : ∀ skip, m ∈ findallFrom p skip (some c) s →
        ∃ x y, c :: s = x ++ y ∧ y ≠ [] ∧ matchAt p (after prev x) y = some m := by
      intro skip hmem
      obtain ⟨x, y, rfl, hy, hm⟩ := ih hmem
      exact ⟨c :: x, y, rfl, hy, by rwa [after_cons]⟩
    cases skip with
    | succ skip => exact hstep skip h
    | zero =>
      rw [findallFrom] at h
      cases hm : matchAt p prev (c :: s) with
      | none =>
        rw [hm] at h
        exact hstep 0 h
      | some m' =>
        rw [hm] at h
        rcases List.mem_cons.mp h with rfl | h
        · exact ⟨[], c :: s, rfl, by simp, hm⟩
        · exact hstep _ h

/-- No match starts strictly inside another one. -/
def Disjoint (p : Pat α) : Prop :=
  ∀ prev x y m, x ≠ [] → matchAt p prev (x ++ y) = some m → x.length < m.text.length →
    matchAt p (after prev x) y = none

/-- When matches never overlap, all of them are found. -/
theorem mem_findallFrom {p : Pat α} (hp : Disjoint p) {skip : ℕ} {prev : Option α}
    {x y : List α} {m : Match α} (hskip : skip ≤ x.length) (hy : y ≠ [])
    (h : matchAt p (after prev x) y = some m) : m ∈ findallFrom p skip prev (x ++ y) := by
  induction x generalizing skip prev with
  | nil =>
    obtain rfl : skip = 0 := by simpa using hskip
    cases y with
    | nil => exact absurd rfl hy
    | cons c y =>
      have h' : matchAt p prev (c :: y) = some m := h
      simp [findallFrom, h']
  | cons c x ih =>
    rw [after_cons] at h
    cases skip with
    | succ skip =>
      rw [List.length_cons] at hskip
      exact ih (by omega) h
    | zero =>
      rw [List.cons_append, findallFrom]
      cases hm : matchAt p prev (c :: (x ++ y)) with
      | none => exact ih (Nat.zero_le _) h
      | some m' =>
        have hlen : m'.text.length - 1 ≤ x.length := by
          by_contra hlt
          have hnone := hp prev (c :: x) y m' (by simp) hm (by simp; omega)
          rw [after_cons, h] at hnone
          cases hnone
        exact List.mem_cons_of_mem _ (ih hlen h)

/-! ## Searches -/

theorem matchAt_of_unique {p : Pat α} {prev : Option α} {s : List α} {m : Match α}
    (hmem : m ∈ ways p prev s) (hall : ∀ m' ∈ ways p prev s, m' = m) :
    matchAt p prev s = some m := by
  cases hways : ways p prev s with
  | nil =>
    rw [hways] at hmem
    simp at hmem
  | cons m' ms => rw [matchAt, hways, List.head?_cons, hall m' (by rw [hways]; simp)]

theorem search_of_matchAt {p : Pat α} {prev : Option α} {s : List α} {m : Match α}
    (h : matchAt p prev s = some m) : search p prev s = some ([], m) := by
  cases s with
  | nil => simp [search, h]
  | cons c s => simp [search, h]

/-- A search skips a text where no match starts. -/
theorem search_append {p : Pat α} {prev : Option α} {x s : List α}
    (h : ∀ a b, x = a ++ b → b ≠ [] → matchAt p (after prev a) (b ++ s) = none) :
    search p prev (x ++ s) = (search p (after prev x) s).map fun r => (x ++ r.1, r.2) := by
  induction x generalizing prev with
  | nil => simp [after]
  | cons c x ih =>
    have hhead : matchAt p prev (c :: (x ++ s)) = none := h [] (c :: x) rfl (by simp)
    have hrest := @ih (some c) fun a b hab hb => by
      rw [← after_cons]
      exact h (c :: a) b (by rw [hab]; rfl) hb
    rw [List.cons_append, search, hhead, hrest, after_cons]
    simp only [Option.map_map]
    rfl

/-- A search finds a match at some place of the text. -/
theorem exists_of_search {p : Pat α} {prev : Option α} {s skipped : List α} {m : Match α}
    (h : search p prev s = some (skipped, m)) :
    ∃ rest, s = skipped ++ rest ∧ m ∈ ways p (after prev skipped) rest := by
  induction s generalizing prev skipped with
  | nil =>
    simp only [search, Option.map_eq_some_iff, Prod.mk.injEq] at h
    obtain ⟨m', hm, rfl, rfl⟩ := h
    exact ⟨[], rfl, matchAt_mem hm⟩
  | cons c s ih =>
    rw [search] at h
    cases hm : matchAt p prev (c :: s) with
    | some m' =>
      rw [hm] at h
      obtain ⟨rfl, rfl⟩ := Prod.mk.injEq .. ▸ Option.some.inj h
      exact ⟨c :: s, rfl, matchAt_mem hm⟩
    | none =>
      rw [hm] at h
      simp only [Option.map_eq_some_iff, Prod.mk.injEq, Prod.exists] at h
      obtain ⟨skip, m', hs, rfl, rfl⟩ := h
      obtain ⟨rest, rfl, hmem⟩ := ih hs
      exact ⟨rest, rfl, by rwa [after_cons]⟩

/-- A pattern that starts with a class matches only where the class does. -/
theorem matchAt_seq_one {f : α → Bool} {q : Pat α} {prev : Option α} {c : α} {s : List α}
    (hc : f c = false) : matchAt (.seq (.one f) q) prev (c :: s) = none := by
  simp [matchAt, ways_seq, ways_one_cons, hc]

theorem search_skip {f : α → Bool} {q : Pat α} {prev : Option α} {x s : List α}
    (hx : ∀ c ∈ x, f c = false) :
    search (.seq (.one f) q) prev (x ++ s) =
      (search (.seq (.one f) q) (after prev x) s).map fun r => (x ++ r.1, r.2) := by
  apply search_append
  rintro a b rfl hb
  cases b with
  | nil => exact absurd rfl hb
  | cons c b => exact matchAt_seq_one (hx c (by simp))

theorem search_eq_none {f : α → Bool} {q : Pat α} {prev : Option α} {s : List α}
    (hs : ∀ c ∈ s, f c = false) : search (.seq (.one f) q) prev s = none := by
  have hskip := @search_skip _ f q prev s [] hs
  rw [List.append_nil] at hskip
  rw [hskip]
  simp [search, matchAt, ways_seq, ways_one_nil]

/-- The longest front inside a class is the only one that is followed from outside. -/
theorem append_cons_inj {p : α → Bool} {a b x y : List α} {c d : α} (ha : ∀ e ∈ a, p e = true)
    (hb : ∀ e ∈ b, p e = true) (hc : p c = false) (hd : p d = false)
    (h : a ++ c :: x = b ++ d :: y) : a = b ∧ c = d ∧ x = y := by
  have hfront : a = b := by
    have hcut := congrArg (List.takeWhile p) h
    rwa [takeWhile_append_of_head ha (by simpa using hc),
      takeWhile_append_of_head hb (by simpa using hd)] at hcut
  subst hfront
  rw [List.append_cancel_left_eq, List.cons.injEq] at h
  exact ⟨rfl, h⟩

end CwStation.Pattern
