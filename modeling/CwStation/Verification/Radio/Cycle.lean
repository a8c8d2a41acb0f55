import CwStation.Library.Cyclic
import CwStation.Model.Radio
import CwStation.Verification.Python.Rounding
import Mathlib.Data.List.Pairwise

/-! # Seeking around the band

In floats, `current + eps` may be rounded up to a station that is past it. Such a station is
missed; where there is none, seeking goes around the stations. -/

namespace CwStation.Radio

open Cyclic
open PyFloat (lit)

/-! ## The arithmetic of a seek -/

/-- The distance of a station from the dial is compared with the margin as it is. -/
theorem abs_sub_le_iff {s c e : Finite64} (hs : 88 ≤ s.val) (he : 0 < e.val ∧ e.val < 1) :
    PyFloat.abs (Float64.num s - Float64.num c) ≤ .num e ↔ |s.val - c.val| ≤ e.val := by
  rw [num_sub]
  by_cases hclose : |s.val - c.val| < 1
  · have hc : 64 ≤ c.val := by
      have hb := abs_lt.mp hclose
      linarith
    have hsc := nearestFloat_sub (by linarith) hc hclose
    rw [ofRat_of_float hsc (hclose.trans one_lt_floatLimit)]
    obtain ⟨y, hy, hval⟩ := @abs_num ⟨s.val - c.val, hsc, hclose.trans one_lt_floatLimit⟩
      (nearestFloat_neg_of_float hsc)
    rw [hy, Float64.num_le, Finite64.le_iff, hval]
  · rw [not_lt] at hclose
    have hfar : ¬|s.val - c.val| ≤ e.val := not_le.mpr (he.2.trans_le hclose)
    rw [iff_false_right hfar]
    rcases ofRat_cases (s.val - c.val) with ⟨y, hy, hval⟩ | hinf
    · have hone : 1 ≤ |y.val| := by
        rcases le_abs.mp hclose with hpos | hneg
        · rw [hval]
          exact (le_nearestFloat nearestFloat_one hpos).trans (le_abs_self _)
        · have hle : y.val ≤ -1 := by
            rw [hval]
            exact nearestFloat_le nearestFloat_neg_one (by linarith)
          exact (le_neg_of_le_neg hle).trans (neg_le_abs _)
      obtain ⟨z, hz, hzval⟩ := abs_num (nearestFloat_neg_of_float y.exact)
      rw [hy, hz, Float64.num_le, Finite64.le_iff, hzval]
      linarith [he.2]
    · rw [hinf]
      cases decide (s.val - c.val < 0)
      · rw [PyFloat.abs, lit_zero]
        exact Bool.false_ne_true
      · rw [PyFloat.abs, lit_zero]
        exact Bool.false_ne_true

/-! ## The two guards -/

section guards

variable {e : Finite64} {S : List Finite64}

/-- The sum that the dial is compared by, where a station is past it. -/
theorem add_le_of_past {c t : Finite64} (he : 0 < e.val) (h : c.val + e.val < t.val) :
    ∃ y : Finite64, Float64.num c + .num e = .num y ∧ y ≤ t := by
  have hle := nearestFloat_le t.exact h.le
  have hge := le_nearestFloat c.exact (by linarith : c.val ≤ c.val + e.val)
  have hlimit : |nearestFloat (c.val + e.val)| < floatLimit := by
    rw [abs_lt]
    exact ⟨(abs_lt.mp c.bounded).1.trans_le hge, hle.trans_lt (abs_lt.mp t.bounded).2⟩
  exact ⟨⟨_, nearestFloat_idem _, hlimit⟩, dif_pos hlimit, hle⟩

theorem le_sub_of_past {c t : Finite64} (he : 0 < e.val) (h : t.val < c.val - e.val) :
    ∃ y : Finite64, Float64.num c - .num e = .num y ∧ t ≤ y := by
  have hge := le_nearestFloat t.exact h.le
  have hle := nearestFloat_le c.exact (by linarith : c.val - e.val ≤ c.val)
  have hlimit : |nearestFloat (c.val - e.val)| < floatLimit := by
    rw [abs_lt]
    exact ⟨(abs_lt.mp t.bounded).1.trans_le hge, hle.trans_lt (abs_lt.mp c.bounded).2⟩
  exact ⟨⟨_, nearestFloat_idem _, hlimit⟩, dif_pos hlimit, hge⟩

theorem past_of_add_lt {c t : Finite64} (ht : 0 < t.val) (h : Float64.num c + .num e < .num t) :
    c.val + e.val < t.val := by
  by_contra hnot
  rw [not_lt] at hnot
  have hle := le_nearestFloat t.exact hnot
  rw [num_add] at h
  rcases ofRat_cases (c.val + e.val) with ⟨y, hy, hval⟩ | hinf
  · rw [hy, Float64.num_lt, Finite64.lt_iff, hval] at h
    exact absurd h (not_lt.mpr hle)
  · have hneg : decide (c.val + e.val < 0) = false := decide_eq_false (by linarith)
    rw [hinf, hneg] at h
    cases h

theorem past_of_lt_sub {c t : Finite64} (he : 0 < e.val) (h : Float64.num t < Float64.num c - .num e) :
    t.val < c.val - e.val := by
  by_contra hnot
  rw [not_lt] at hnot
  have hle := nearestFloat_le t.exact hnot
  rw [num_sub] at h
  by_cases hlimit : |nearestFloat (c.val - e.val)| < floatLimit
  · have hnum : Float64.ofRat (c.val - e.val) = .num ⟨_, nearestFloat_idem _, hlimit⟩ := dif_pos hlimit
    rw [hnum, Float64.num_lt, Finite64.lt_iff] at h
    exact absurd h (not_lt.mpr hle)
  · have hneg : c.val - e.val < 0 := by
      by_contra hpos
      have hge := le_nearestFloat nearestFloat_zero (not_lt.mp hpos)
      have hle' := nearestFloat_le c.exact (by linarith : c.val - e.val ≤ c.val)
      rw [abs_of_nonneg hge] at hlimit
      exact hlimit (hle'.trans_lt (abs_lt.mp c.bounded).2)
    have hinf : Float64.ofRat (c.val - e.val) = .inf (decide (c.val - e.val < 0)) := dif_neg hlimit
    rw [hinf, decide_eq_true hneg] at h
    cases h

/-- Seeking up: stations above `dial + eps`. -/
def guardUp (he : 0 < e.val ∧ e.val < 1) (hS : ∀ s ∈ S, 88 ≤ s.val) (c : Finite64) : Guard S where
  beyond t := decide (Float64.num c + .num e < .num t)
  within t := decide (PyFloat.abs (Float64.num t - .num c) ≤ .num e)
  past t := c.val + e.val < t.val
  low t := c.val - e.val ≤ t.val
  past_of_beyond t ht h := past_of_add_lt (by linarith [hS t ht]) (of_decide_eq_true h)
  beyond_of_le t t' hle h := decide_eq_true (lt_num_of_le (of_decide_eq_true h) hle)
  past_of_le t t' hle h := lt_of_lt_of_le h hle
  low_of_le t t' hle h := le_trans h hle
  within_iff t ht := by
    rw [decide_eq_true_eq, abs_sub_le_iff (hS t ht) he, abs_le, not_lt]
    constructor
    · rintro ⟨hlow, hhigh⟩
      exact ⟨by linarith, by linarith⟩
    · rintro ⟨hlow, hhigh⟩
      exact ⟨by linarith, by linarith⟩
  beyond_of_lt t t' h hlt := by
    obtain ⟨y, hy, hle⟩ := add_le_of_past he.1 h
    rw [hy, decide_eq_true_eq, Float64.num_lt]
    exact hle.trans_lt hlt

/-- Seeking down: stations below `dial - eps`. -/
def guardDown (he : 0 < e.val ∧ e.val < 1) (hS : ∀ s ∈ S, 88 ≤ s.val) (c : Finite64) :
    Guard (S.map OrderDual.toDual) where
  beyond t := decide (Float64.num (OrderDual.ofDual t) < .num c - .num e)
  within t := decide (PyFloat.abs (Float64.num (OrderDual.ofDual t) - .num c) ≤ .num e)
  past t := (OrderDual.ofDual t).val < c.val - e.val
  low t := (OrderDual.ofDual t).val ≤ c.val + e.val
  past_of_beyond t _ h := past_of_lt_sub he.1 (of_decide_eq_true h)
  beyond_of_le t t' hle h := decide_eq_true (num_lt_of_le (of_decide_eq_true h) hle)
  past_of_le t t' hle h := lt_of_le_of_lt hle h
  low_of_le t t' hle h := le_trans hle h
  within_iff t ht := by
    obtain ⟨s, hs, rfl⟩ := List.mem_map.mp ht
    rw [OrderDual.ofDual_toDual, decide_eq_true_eq, abs_sub_le_iff (hS s hs) he, abs_le, not_lt]
    constructor
    · rintro ⟨hlow, hhigh⟩
      exact ⟨by linarith, by linarith⟩
    · rintro ⟨hlow, hhigh⟩
      exact ⟨by linarith, by linarith⟩
  beyond_of_lt t t' h hlt := by
    obtain ⟨y, hy, hle⟩ := le_sub_of_past he.1 h
    rw [hy, decide_eq_true_eq, Float64.num_lt]
    exact lt_of_lt_of_le hlt hle

/-! ## What `next_station` does -/

theorem pick_map {α F : Type} {better : F → F → F} {least : α → α → α} {f : α → F}
    (h : ∀ a b, better (f a) (f b) = f (least a b)) (a : α) (l : List α) :
    pick better ((a :: l).map f) = some (f (l.foldl least a)) := by
  rw [List.map_cons, pick]
  congr 1
  induction l generalizing a with
  | nil => rfl
  | cons b l ih => rw [List.map_cons, List.foldl_cons, h, ih, List.foldl_cons]

theorem pick_min (l : List Finite64) :
    pick PyFloat.min (l.map Float64.num) = l.min?.map Float64.num := by
  cases l with
  | nil => rfl
  | cons a l =>
    rw [@pick_map _ _ _ min _ _ a l]
    · rfl
    · intro a b
      rw [PyFloat.min]
      by_cases h : b < a
      · rw [if_pos (Float64.num_lt.mpr h), min_eq_right h.le]
      · rw [if_neg (fun hlt => h (Float64.num_lt.mp hlt)), min_eq_left (not_lt.mp h)]

theorem pick_max (l : List Finite64) :
    pick PyFloat.max (l.map Float64.num) =
      (l.map OrderDual.toDual).min?.map fun t => Float64.num (OrderDual.ofDual t) := by
  cases l with
  | nil => rfl
  | cons a l =>
    have hmax : ∀ a b : Finite64, PyFloat.max (Float64.num a) (.num b) = .num (max a b) := by
      intro a b
      rw [PyFloat.max]
      by_cases h : a < b
      · rw [if_pos (Float64.num_lt.mpr h), max_eq_right h.le]
      · rw [if_neg (fun hlt => h (Float64.num_lt.mp hlt)), max_eq_left (not_lt.mp h)]
    rw [pick_map hmax a l, List.map_cons, List.min?_cons', Option.map_some]
    congr 2
    induction l generalizing a with
    | nil => rfl
    | cons b l ih => exact ih (max a b)

variable {band : RadioBand Float64} {c : Finite64}

theorem nextStation_up (heps : band.seekEpsMhz = .num e) (he : 0 < e.val ∧ e.val < 1)
    (hS : ∀ s ∈ S, 88 ≤ s.val) :
    nextStation (S.map Float64.num) (.num c) "up".toList band =
      (guardUp he hS c).seek.map Float64.num := by
  rw [nextStation]
  simp only [if_true, heps, List.filter_map]
  rw [pick_min, pick_min, Guard.seek, pickNext]
  rw [← Option.map_or]
  rw [Option.filter_map]
  rfl

theorem nextStation_down (heps : band.seekEpsMhz = .num e) (he : 0 < e.val ∧ e.val < 1)
    (hS : ∀ s ∈ S, 88 ≤ s.val) :
    nextStation (S.map Float64.num) (.num c) "down".toList band =
      (guardDown he hS c).seek.map fun t => .num (OrderDual.ofDual t) := by
  have hdown : ¬"down".toList = "up".toList := by decide
  rw [nextStation]
  simp only [if_neg hdown, heps, List.filter_map]
  rw [pick_max, pick_max, Guard.seek, pickNext]
  rw [← Option.map_or]
  rw [Option.filter_map, List.filter_map]
  rfl

/-! ## Going around -/

/-- The number that a finite float stands for. -/
def valOf : Float64 → ℚ
  | .num x => x.val
  | _ => 0

theorem small_margin {q : ℚ} (hlow : 1 / 64 ≤ q) (hhigh : q ≤ 1 / 2) :
    ∃ e : Finite64, Float64.ofRat q = .num e ∧ 0 < e.val ∧ e.val < 1 := by
  have ha : nearestFloat (1 / 64) = 1 / 64 := by
    have h := nearestFloat_of_digits (m := 1) (k := -6) (by norm_num) (by norm_num)
    norm_num at h ⊢
    exact h
  have hb : nearestFloat (1 / 2) = 1 / 2 := by
    have h := nearestFloat_of_digits (m := 1) (k := -1) (by norm_num) (by norm_num)
    norm_num at h ⊢
    exact h
  have hlimit := one_lt_floatLimit
  obtain ⟨e, heq, hle, hge⟩ := ofRat_between ha hb hlow hhigh (by linarith) (by linarith)
  exact ⟨e, heq, by linarith, by linarith⟩

/-- The margin of a band, and its lower end. -/
theorem band_facts (h : band ∈ (radioBands : List (RadioBand Float64))) :
    (∃ e : Finite64, band.seekEpsMhz = .num e ∧ 0 < e.val ∧ e.val < 1) ∧
      ∀ x : Finite64, band.low ≤ .num x → 88 ≤ x.val := by
  have hlit : ∀ m : ℤ, 88 ≤ m → m ≤ 1000 → ∀ x : Finite64, (lit (m : ℚ) : Float64) ≤ .num x →
      88 ≤ x.val := by
    intro m hm hm' x hx
    have hexact : nearestFloat (m : ℚ) = m := by
      have h := nearestFloat_of_digits (m := m) (k := 0) (by rw [abs_of_nonneg] <;> omega) (by norm_num)
      simpa using h
    have hbound : |(m : ℚ)| < floatLimit := by
      rw [abs_of_nonneg (by exact_mod_cast (by omega : (0 : ℤ) ≤ m))]
      have hthousand : (m : ℚ) ≤ 1000 := by exact_mod_cast hm'
      exact hthousand.trans_lt (lt_of_lt_of_le (by norm_num : (1000 : ℚ) < 2 ^ 10)
        (pow_le_pow_right₀ one_le_two (by norm_num)))
    change Float64.ofRat m ≤ .num x at hx
    rw [ofRat_of_float hexact hbound, Float64.num_le, Finite64.le_iff] at hx
    have hlow : (88 : ℚ) ≤ m := by exact_mod_cast hm
    exact hlow.trans hx
  rw [radioBands, List.mem_cons, List.mem_singleton] at h
  rcases h with rfl | rfl
  · exact ⟨small_margin (by norm_num) (by norm_num), hlit 88 (by norm_num) (by norm_num)⟩
  · exact ⟨small_margin (by norm_num) (by norm_num), hlit 118 (by norm_num) (by norm_num)⟩

/-- One seek from a station to the next. -/
def seekFrom (band : RadioBand Float64) (S : List Finite64) (direction : String) (f : Float64) :
    Option Float64 := nextStation (S.map Float64.num) f direction.toList band

/-- The stations in their order. -/
def inOrder (S : List Finite64) : List Finite64 := S.insertionSort (· ≤ ·)

theorem inOrder_perm (S : List Finite64) : (inOrder S).Perm S := List.perm_insertionSort _ _

theorem inOrder_strict (h : S.Nodup) : (inOrder S).Pairwise (· < ·) :=
  (List.pairwise_insertionSort (· ≤ ·) S).imp₂ (fun _ _ => lt_of_le_of_ne)
    ((inOrder_perm S).nodup_iff.mpr h)

/-- Seeking up goes around the stations in their order, and seeking down goes back. -/
structure Cycles (band : RadioBand Float64) (S : List Finite64) : Prop where
  up : ∀ (h : 0 < (inOrder S).length) (k i : ℕ),
    times (seekFrom band S "up") k (.num (around (inOrder S) h i)) =
      some (.num (around (inOrder S) h (i + k)))
  upDown : ∀ f ∈ S, ∃ g ∈ S, seekFrom band S "up" (.num f) = some (.num g) ∧
    seekFrom band S "down" (.num g) = some (.num f)
  downUp : ∀ f ∈ S, ∃ g ∈ S, seekFrom band S "down" (.num f) = some (.num g) ∧
    seekFrom band S "up" (.num g) = some (.num f)

/-- Stations lie farther apart than the margin. -/
def FarApart (band : RadioBand Float64) (S : List Finite64) : Prop :=
  S.Pairwise fun f g => valOf band.seekEpsMhz < |f.val - g.val|

theorem FarApart.far (heps : band.seekEpsMhz = .num e) (h : FarApart band S) {f g : Finite64}
    (hf : f ∈ S) (hg : g ∈ S) (hne : f ≠ g) : e.val < |f.val - g.val| := by
  have hsymm : Std.Symm fun f g : Finite64 => valOf band.seekEpsMhz < |f.val - g.val| :=
    ⟨fun f g hfg => by rw [abs_sub_comm]; exact hfg⟩
  have hfar := List.Pairwise.forall h hf hg hne
  rw [heps] at hfar
  exact hfar

theorem FarApart.nodup (heps : band.seekEpsMhz = .num e) (he : 0 < e.val) (h : FarApart band S) :
    S.Nodup := by
  refine h.imp fun {f g} hfar => ?_
  rintro rfl
  rw [heps, sub_self, abs_zero] at hfar
  exact absurd hfar (not_lt.mpr he.le)

/-- No station is missed between two stations: the tests of the seek see that they are apart. -/
def Seen (band : RadioBand Float64) (S : List Finite64) : Prop :=
  ∀ f ∈ S, ∀ g ∈ S, f < g → Float64.num f + band.seekEpsMhz < .num g ∧
    Float64.num f < .num g - band.seekEpsMhz

theorem exists_other (hnodup : S.Nodup) (htwo : 2 ≤ S.length) (s : Finite64) : ∃ g ∈ S, g ≠ s := by
  by_contra hnone
  push Not at hnone
  have hsub : S.length ≤ [s].length :=
    (List.subperm_of_subset hnodup fun g hg => List.mem_singleton.mpr (hnone g hg)).length_le
  rw [List.length_singleton] at hsub
  omega

section Walk

variable (heps : band.seekEpsMhz = .num e) (he : 0 < e.val ∧ e.val < 1) (hS : ∀ s ∈ S, 88 ≤ s.val)
  (hapart : FarApart band S) (htwo : 2 ≤ S.length)

include heps he hS hapart htwo

theorem seek_up_iff {f : Finite64} (hf : f ∈ S) :
    (∀ g, Next S f g → (guardUp he hS f).seek = some g) ↔
      ∀ g ∈ S, f < g → Float64.num f + band.seekEpsMhz < .num g := by
  have hnodup := hapart.nodup heps he.1
  rw [Guard.seek_next_iff hf (exists_other hnodup htwo f)]
  · simp only [guardUp, heps, decide_eq_true_eq]
  · intro t ht hb
    have hpast := (guardUp he hS f).past_of_beyond t ht hb
    rw [Finite64.lt_iff]
    linarith [show f.val + e.val < t.val from hpast, he.1]
  · intro t ht hne
    have hfar := hapart.far heps ht hf hne
    apply decide_eq_false
    rw [abs_sub_le_iff (hS t ht) he]
    exact not_le.mpr hfar

theorem seek_down_iff {g : Finite64} (hg : g ∈ S) :
    (∀ t, @Next Finite64ᵒᵈ _ (S.map OrderDual.toDual) (OrderDual.toDual g) t →
        (guardDown he hS g).seek = some t) ↔
      ∀ f ∈ S, f < g → Float64.num f < .num g - band.seekEpsMhz := by
  have hnodup := hapart.nodup heps he.1
  have hmem : ∀ t : Finite64ᵒᵈ, t ∈ S.map OrderDual.toDual → OrderDual.ofDual t ∈ S := by
    intro t ht
    obtain ⟨s, hs, rfl⟩ := List.mem_map.mp ht
    exact hs
  have hother : ∃ t ∈ S.map OrderDual.toDual, t ≠ OrderDual.toDual g := by
    obtain ⟨s, hs, hne⟩ := exists_other hnodup htwo g
    exact ⟨OrderDual.toDual s, List.mem_map_of_mem hs, fun h => hne (OrderDual.toDual_inj.mp h)⟩
  rw [Guard.seek_next_iff (List.mem_map_of_mem hg) hother]
  · constructor
    · intro h f hf hlt
      have hb := h (OrderDual.toDual f) (List.mem_map_of_mem hf) (OrderDual.toDual_lt_toDual.mpr hlt)
      rw [heps]
      exact of_decide_eq_true hb
    · intro h t ht hlt
      have hb := h (OrderDual.ofDual t) (hmem t ht) hlt
      rw [heps] at hb
      exact decide_eq_true hb
  · intro t ht hb
    have hpast := (guardDown he hS g).past_of_beyond t ht hb
    change (OrderDual.ofDual t).val < g.val
    linarith [show (OrderDual.ofDual t).val < g.val - e.val from hpast, he.1]
  · intro t ht hne
    have hfar := hapart.far heps (hmem t ht) hg fun h => hne (congrArg OrderDual.toDual h)
    apply decide_eq_false
    rw [abs_sub_le_iff (hS _ (hmem t ht)) he]
    exact not_le.mpr hfar

theorem cycles_of_seen (h : Seen band S) : Cycles band S := by
  have hnodup := hapart.nodup heps he.1
  have hup : ∀ f ∈ S, ∀ g, Next S f g → seekFrom band S "up" (.num f) = some (.num g) := by
    intro f hf g hg
    rw [seekFrom, nextStation_up heps he hS,
      (seek_up_iff heps he hS hapart htwo hf).mpr (fun t ht hlt => (h f hf t ht hlt).1) g hg]
    rfl
  have hdown : ∀ g ∈ S, ∀ f ∈ S, Next S f g → seekFrom band S "down" (.num g) = some (.num f) := by
    intro g hg f hf hnext
    rw [seekFrom, nextStation_down heps he hS,
      (seek_down_iff heps he hS hapart htwo hg).mpr (fun t ht hlt => (h t ht g hg hlt).2) _
        (hnext.dual hf)]
    rfl
  refine ⟨?_, ?_, ?_⟩
  · intro hpos k i
    refine times_around (e := Float64.num) ?_ (inOrder_strict hnodup) hpos k i
    intro f hf g hg
    exact hup f ((inOrder_perm S).mem_iff.mp hf) g (hg.of_perm (inOrder_perm S))
  · intro f hf
    obtain ⟨g, hg⟩ := exists_next hf
    exact ⟨g, hg.mem, hup f hf g hg, hdown g hg.mem f hf hg⟩
  · intro g hg
    obtain ⟨t, ht⟩ := exists_next (List.mem_map_of_mem (f := OrderDual.toDual) hg)
    obtain ⟨f, hf, rfl⟩ := List.mem_map.mp ht.mem
    have hnext := ht.of_dual hg
    exact ⟨f, hf, hdown g hg f hf hnext, hup f hf g hnext⟩

theorem seen_of_cycles (h : Cycles band S) : Seen band S := by
  have hnodup := hapart.nodup heps he.1
  have hup : ∀ f ∈ S, ∀ g, Next S f g → seekFrom band S "up" (.num f) = some (.num g) := by
    intro f hf g hg
    have hf' := (inOrder_perm S).mem_iff.mpr hf
    have hpos := List.length_pos_of_mem hf'
    obtain ⟨i, hi⟩ := exists_around (h := hpos) hf'
    have hnext := (next_around (inOrder_strict hnodup) hpos i).of_perm (inOrder_perm S)
    have hone := h.up hpos 1 i
    rw [hi] at hnext hone
    rw [hg.unique hnext]
    rw [times] at hone
    cases hstep : seekFrom band S "up" (.num f) with
    | none =>
      rw [hstep] at hone
      cases hone
    | some x =>
      rw [hstep, Option.bind_some, times] at hone
      exact hone
  have hseek : ∀ f ∈ S, ∀ g, Next S f g → (guardUp he hS f).seek = some g := by
    intro f hf g hg
    have hstep := hup f hf g hg
    rw [seekFrom, nextStation_up heps he hS, Option.map_eq_some_iff] at hstep
    obtain ⟨g', hg', heq⟩ := hstep
    rw [hg', Float64.num.inj heq]
  have hseekDown : ∀ g ∈ S, ∀ t, @Next Finite64ᵒᵈ _ (S.map OrderDual.toDual) (OrderDual.toDual g) t →
      (guardDown he hS g).seek = some t := by
    intro g hg t ht
    obtain ⟨f, hf, rfl⟩ := List.mem_map.mp ht.mem
    obtain ⟨g', -, hfg, hgf⟩ := h.upDown f hf
    rw [hup f hf g (ht.of_dual hg), Option.some.injEq, Float64.num.injEq] at hfg
    subst hfg
    rw [seekFrom, nextStation_down heps he hS, Option.map_eq_some_iff] at hgf
    obtain ⟨t', ht', heq⟩ := hgf
    have hval := Float64.num.inj heq
    rw [ht', ← hval]
    rfl
  intro f hf g hg hlt
  exact ⟨(seek_up_iff heps he hS hapart htwo hf).mp (hseek f hf) g hg hlt,
    (seek_down_iff heps he hS hapart htwo hg).mp (hseekDown g hg) f hf hlt⟩

end Walk

/-- A station at the top that is past the margin of a dial and missed, with all others in it. -/
def MissedAbove (band : RadioBand Float64) (S : List Finite64) (c : Finite64) : Prop :=
  ∃ s ∈ S, c.val + valOf band.seekEpsMhz < s.val ∧
    ¬Float64.num c + band.seekEpsMhz < .num s ∧
      ∀ t ∈ S, c.val - valOf band.seekEpsMhz ≤ t.val ∧ t ≤ s

/-- A station at the bottom that is. -/
def MissedBelow (band : RadioBand Float64) (S : List Finite64) (c : Finite64) : Prop :=
  ∃ s ∈ S, s.val < c.val - valOf band.seekEpsMhz ∧
    ¬Float64.num s < .num c - band.seekEpsMhz ∧
      ∀ t ∈ S, t.val ≤ c.val + valOf band.seekEpsMhz ∧ s ≤ t

/-- Everything is within the margin of a dial. -/
def AllWithin (band : RadioBand Float64) (S : List Finite64) (c : Finite64) : Prop :=
  ∀ s ∈ S, |s.val - c.val| ≤ valOf band.seekEpsMhz

theorem seek_none_up_iff (heps : band.seekEpsMhz = .num e) (he : 0 < e.val ∧ e.val < 1)
    (hS : ∀ s ∈ S, 88 ≤ s.val) (hother : ∀ s ∈ S, ∃ g ∈ S, g ≠ s) (c : Finite64) :
    (seekFrom band S "up" (.num c) = none ↔ AllWithin band S c) ↔ ¬MissedAbove band S c := by
  have hguard := (guardUp he hS c).seek_none_iff hother
  have hwithin : (∀ t ∈ S, (guardUp he hS c).within t = true) ↔ AllWithin band S c := by
    rw [AllWithin, heps]
    refine forall₂_congr fun t ht => ?_
    exact decide_eq_true_iff.trans (abs_sub_le_iff (hS t ht) he)
  have hmissed : (∃ s ∈ S, (guardUp he hS c).past s ∧ (guardUp he hS c).beyond s = false ∧
      ∀ t ∈ S, (guardUp he hS c).low t ∧ t ≤ s) ↔ MissedAbove band S c := by
    rw [MissedAbove, heps]
    simp only [guardUp, decide_eq_false_iff_not, valOf]
  rw [hwithin, hmissed] at hguard
  rw [← hguard, seekFrom, nextStation_up heps he hS, Option.map_eq_none_iff]

theorem seek_none_down_iff (heps : band.seekEpsMhz = .num e) (he : 0 < e.val ∧ e.val < 1)
    (hS : ∀ s ∈ S, 88 ≤ s.val) (hother : ∀ s ∈ S, ∃ g ∈ S, g ≠ s) (c : Finite64) :
    (seekFrom band S "down" (.num c) = none ↔ AllWithin band S c) ↔ ¬MissedBelow band S c := by
  have hother' : ∀ s ∈ S.map OrderDual.toDual, ∃ g ∈ S.map OrderDual.toDual, g ≠ s := by
    intro s hs
    obtain ⟨s, hs', rfl⟩ := List.mem_map.mp hs
    obtain ⟨g, hg, hne⟩ := hother s hs'
    exact ⟨OrderDual.toDual g, List.mem_map_of_mem hg, fun h => hne (OrderDual.toDual_inj.mp h)⟩
  have hguard := (guardDown he hS c).seek_none_iff hother'
  have hwithin : (∀ t ∈ S.map OrderDual.toDual, (guardDown he hS c).within t = true) ↔
      AllWithin band S c := by
    rw [AllWithin, heps, List.forall_mem_map]
    refine forall₂_congr fun t ht => ?_
    exact decide_eq_true_iff.trans (abs_sub_le_iff (hS t ht) he)
  have hmissed : (∃ s ∈ S.map OrderDual.toDual, (guardDown he hS c).past s ∧
      (guardDown he hS c).beyond s = false ∧
        ∀ t ∈ S.map OrderDual.toDual, (guardDown he hS c).low t ∧ t ≤ s) ↔ MissedBelow band S c := by
    rw [MissedBelow, heps]
    simp only [List.mem_map, exists_exists_and_eq_and, forall_exists_index, and_imp,
      forall_apply_eq_imp_iff₂, guardDown, decide_eq_false_iff_not, valOf, OrderDual.ofDual_toDual,
      OrderDual.toDual_le_toDual]
  rw [hwithin, hmissed] at hguard
  rw [← hguard, seekFrom, nextStation_down heps he hS, Option.map_eq_none_iff]

/-- With at least two stations on a band, farther apart than its margin: seeking goes around
them, and finds nothing only where all are within the margin of the dial, exactly when the
rounding of `dial + eps` and `dial - eps` misses none. -/
theorem seek_cycles_iff (hband : band ∈ (radioBands : List (RadioBand Float64)))
    (hinside : ∀ f ∈ S, band.low ≤ .num f ∧ Float64.num f ≤ band.high) (hapart : FarApart band S)
    (htwo : 2 ≤ S.length) (c : Finite64) :
    (Cycles band S ∧ (seekFrom band S "up" (.num c) = none ↔ AllWithin band S c) ∧
        (seekFrom band S "down" (.num c) = none ↔ AllWithin band S c)) ↔
      Seen band S ∧ ¬MissedAbove band S c ∧ ¬MissedBelow band S c := by
  obtain ⟨⟨e, heps, he⟩, hlow⟩ := band_facts hband
  have hS : ∀ s ∈ S, 88 ≤ s.val := fun s hs => hlow s (hinside s hs).1
  have hother : ∀ s ∈ S, ∃ g ∈ S, g ≠ s := fun s _ => exists_other (hapart.nodup heps he.1) htwo s
  rw [seek_none_up_iff heps he hS hother, seek_none_down_iff heps he hS hother]
  apply and_congr_left
  intro _
  exact ⟨seen_of_cycles heps he hS hapart htwo, cycles_of_seen heps he hS hapart htwo⟩

/-- The FM band. -/
def fmBand : RadioBand Float64 where
  low := lit 88
  high := lit 108
  step := lit (1 / 10)
  decimals := 1
  seekSeparationMhz := lit (1 / 4)
  seekEpsMhz := lit (3 / 20)

/-- The float next to a number of MHz. -/
def tuned (q : ℚ) (h : |nearestFloat q| < floatLimit) : Finite64 := ⟨nearestFloat q, nearestFloat_idem q, h⟩

/-- Stations at 88.0 and 88.2, the dial at 88.05: 88.2 is neither ahead nor within the margin. -/
theorem seek_misses_station : ∃ S c, (∀ f ∈ S, fmBand.low ≤ .num f ∧ Float64.num f ≤ fmBand.high) ∧
    FarApart fmBand S ∧ 2 ≤ S.length ∧ seekFrom fmBand S "up" (.num c) = none ∧
      ¬AllWithin fmBand S c := by
  refine ⟨[tuned 88 (by decide +kernel), tuned (441 / 5) (by decide +kernel)],
    tuned (1761 / 20) (by decide +kernel), by decide +kernel, ?_, by decide, by decide +kernel, ?_⟩
  · unfold FarApart
    decide +kernel
  · unfold AllWithin
    decide +kernel

theorem two_stations_cycle :
    Cycles fmBand [tuned (971 / 10) (by decide +kernel), tuned (1031 / 10) (by decide +kernel)] := by
  have hseen : Seen fmBand
      [tuned (971 / 10) (by decide +kernel), tuned (1031 / 10) (by decide +kernel)] := by
    unfold Seen
    decide +kernel
  refine ((seek_cycles_iff List.mem_cons_self (by decide +kernel) ?_ (by decide)
    (tuned (971 / 10) (by decide +kernel))).mpr ⟨hseen, ?_, ?_⟩).1
  · unfold FarApart
    decide +kernel
  · unfold MissedAbove
    decide +kernel
  · unfold MissedBelow
    decide +kernel

end guards

end CwStation.Radio
