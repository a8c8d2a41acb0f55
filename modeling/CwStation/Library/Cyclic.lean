import Mathlib.Data.List.Dedup
import Mathlib.Data.List.Sort
import Mathlib.Order.MinMax
import Mathlib.Order.OrderDual

/-! # Walking around a list

From each element one goes to the next greater one, and from the greatest to the least. -/

namespace CwStation.Cyclic

variable {α : Type} [LinearOrder α] {l : List α} {f g : α}

/-- `g` comes behind `f`: the least of those beyond it, or the least of all behind the
greatest. -/
structure Next (l : List α) (f g : α) : Prop where
  mem : g ∈ l
  least : (f < g ∧ ∀ t ∈ l, f < t → g ≤ t) ∨ ((∀ t ∈ l, t ≤ f) ∧ ∀ t ∈ l, g ≤ t)

theorem Next.unique {g' : α} (h : Next l f g) (h' : Next l f g') : g = g' := by
  rcases h.least with ⟨hlt, hmin⟩ | ⟨hmax, hmin⟩
  · rcases h'.least with ⟨hlt', hmin'⟩ | ⟨hmax', -⟩
    · exact le_antisymm (hmin g' h'.mem hlt') (hmin' g h.mem hlt)
    · exact absurd (hmax' g h.mem) (not_le.mpr hlt)
  · rcases h'.least with ⟨hlt', -⟩ | ⟨-, hmin'⟩
    · exact absurd (hmax g' h'.mem) (not_le.mpr hlt')
    · exact le_antisymm (hmin g' h'.mem) (hmin' g h.mem)

/-- Backwards, an element comes behind the one that it comes before. -/
theorem Next.dual (h : Next l f g) (hf : f ∈ l) :
    @Next αᵒᵈ _ (l.map OrderDual.toDual) (OrderDual.toDual g) (OrderDual.toDual f) := by
  refine ⟨List.mem_map_of_mem hf, ?_⟩
  rcases h.least with ⟨hlt, hmin⟩ | ⟨hmax, hmin⟩
  · refine .inl ⟨OrderDual.toDual_lt_toDual.mpr hlt, ?_⟩
    intro t ht hgt
    obtain ⟨s, hs, rfl⟩ := List.mem_map.mp ht
    rw [OrderDual.toDual_lt_toDual] at hgt
    rw [OrderDual.toDual_le_toDual]
    by_contra hle
    exact absurd (hmin s hs (not_le.mp hle)) (not_le.mpr hgt)
  · refine .inr ⟨?_, ?_⟩
    · intro t ht
      obtain ⟨s, hs, rfl⟩ := List.mem_map.mp ht
      exact OrderDual.toDual_le_toDual.mpr (hmin s hs)
    · intro t ht
      obtain ⟨s, hs, rfl⟩ := List.mem_map.mp ht
      exact OrderDual.toDual_le_toDual.mpr (hmax s hs)

theorem Next.of_dual (hg : g ∈ l)
    (h : @Next αᵒᵈ _ (l.map OrderDual.toDual) (OrderDual.toDual g) (OrderDual.toDual f)) :
    Next l f g := by
  refine ⟨hg, ?_⟩
  have hmem : ∀ t ∈ l, OrderDual.toDual t ∈ l.map OrderDual.toDual := fun t ht =>
    List.mem_map_of_mem ht
  rcases h.least with ⟨hlt, hmin⟩ | ⟨hmax, hmin⟩
  · refine .inl ⟨OrderDual.toDual_lt_toDual.mp hlt, fun t ht hft => ?_⟩
    by_contra hle
    have hle' := hmin _ (hmem t ht) (OrderDual.toDual_lt_toDual.mpr (not_le.mp hle))
    exact absurd (OrderDual.toDual_le_toDual.mp hle') (not_le.mpr hft)
  · refine .inr ⟨fun t ht => ?_, fun t ht => ?_⟩
    · exact OrderDual.toDual_le_toDual.mp (hmin _ (hmem t ht))
    · exact OrderDual.toDual_le_toDual.mp (hmax _ (hmem t ht))

/-- The element at a place, counted around. -/
def around (l : List α) (h : 0 < l.length) (i : ℕ) : α := l.get ⟨i % l.length, Nat.mod_lt _ h⟩

omit [LinearOrder α] in
theorem around_of_lt {h : 0 < l.length} {i : ℕ} (hi : i < l.length) : around l h i = l[i] := by
  simp only [around, List.get_eq_getElem, Nat.mod_eq_of_lt hi]

omit [LinearOrder α] in
theorem around_congr {h : 0 < l.length} {i j : ℕ} (hij : i % l.length = j % l.length) :
    around l h i = around l h j := by
  simp only [around, hij]

omit [LinearOrder α] in
theorem exists_around {h : 0 < l.length} (hf : f ∈ l) : ∃ i, around l h i = f := by
  obtain ⟨i, hi, rfl⟩ := List.getElem_of_mem hf
  exact ⟨i, around_of_lt hi⟩

/-- In a sorted list the next element stands at the next place. -/
theorem next_around (hl : l.Pairwise (· < ·)) (h : 0 < l.length) (i : ℕ) :
    Next l (around l h i) (around l h (i + 1)) := by
  have hlt : ∀ j k (hj : j < l.length) (hk : k < l.length), j < k → l[j] < l[k] :=
    fun j k hj hk hjk => List.pairwise_iff_getElem.mp hl j k hj hk hjk
  have hle : ∀ j k (hj : j < l.length) (hk : k < l.length), j ≤ k → l[j] ≤ l[k] := by
    intro j k hj hk hjk
    rcases lt_or_eq_of_le hjk with hjk | rfl
    · exact (hlt j k hj hk hjk).le
    · exact le_rfl
  refine ⟨List.get_mem _ _, ?_⟩
  have hj : i % l.length < l.length := Nat.mod_lt _ h
  have hi : around l h i = l[i % l.length] := by
    rw [around_congr (Nat.mod_mod i l.length).symm, around_of_lt hj]
  have hnext : around l h (i + 1) = around l h (i % l.length + 1) :=
    around_congr (Nat.mod_add_mod i l.length 1).symm
  rw [hi, hnext]
  by_cases hlast : i % l.length + 1 < l.length
  · left
    rw [around_of_lt hlast]
    refine ⟨hlt _ _ hj hlast (Nat.lt_succ_self _), ?_⟩
    intro t ht hgt
    obtain ⟨k, hk, rfl⟩ := List.getElem_of_mem ht
    apply hle _ k hlast hk
    by_contra hki
    exact absurd (hle k _ hk hj (by omega)) (not_le.mpr hgt)
  · right
    have hzero : around l h (i % l.length + 1) = l[0] := by
      have heq : i % l.length + 1 = l.length := by omega
      have hmod : l.length % l.length = 0 % l.length := by rw [Nat.mod_self, Nat.zero_mod]
      rw [heq, around_congr hmod, around_of_lt h]
    rw [hzero]
    constructor
    · intro t ht
      obtain ⟨k, hk, rfl⟩ := List.getElem_of_mem ht
      exact hle k _ hk hj (by omega)
    · intro t ht
      obtain ⟨k, hk, rfl⟩ := List.getElem_of_mem ht
      exact hle 0 k h hk (Nat.zero_le k)

theorem Next.of_perm {l' : List α} (h : Next l f g) (hperm : l.Perm l') : Next l' f g := by
  refine ⟨hperm.mem_iff.mp h.mem, ?_⟩
  simp only [← hperm.mem_iff]
  exact h.least

theorem exists_next (hf : f ∈ l) : ∃ g, Next l f g := by
  have hperm := List.perm_insertionSort (· ≤ ·) l.dedup
  have hstrict : (l.dedup.insertionSort (· ≤ ·)).Pairwise (· < ·) := by
    have hnodup : (l.dedup.insertionSort (· ≤ ·)).Nodup := hperm.nodup_iff.mpr (List.nodup_dedup l)
    exact (List.pairwise_insertionSort (· ≤ ·) _).imp₂ (fun _ _ => lt_of_le_of_ne) hnodup
  have hmem : ∀ t, t ∈ l.dedup.insertionSort (· ≤ ·) ↔ t ∈ l := by
    intro t
    rw [hperm.mem_iff, List.mem_dedup]
  have hfs := (hmem f).mpr hf
  have hpos := List.length_pos_of_mem hfs
  obtain ⟨i, rfl⟩ := exists_around (h := hpos) hfs
  have hnext := next_around hstrict hpos i
  refine ⟨_, (hmem _).mp hnext.mem, ?_⟩
  have hleast := hnext.least
  simp only [hmem] at hleast
  exact hleast

/-! ## Steps -/

/-- The place after `k` steps, if each step leads somewhere. -/
def times (step : α → Option α) : ℕ → α → Option α
  | 0, f => some f
  | k + 1, f => (step f).bind (times step k)

/-- A step that always goes to the next element goes around a sorted list. -/
theorem times_around {β : Type} {step : β → Option β} {e : α → β}
    (h : ∀ f ∈ l, ∀ g, Next l f g → step (e f) = some (e g))
    (hl : l.Pairwise (· < ·)) (hpos : 0 < l.length) (k i : ℕ) :
    times step k (e (around l hpos i)) = some (e (around l hpos (i + k))) := by
  induction k generalizing i with
  | zero => rfl
  | succ k ih =>
    have hstep : step (e (around l hpos i)) = some (e (around l hpos (i + 1))) :=
      h _ (List.get_mem _ _) _ (next_around hl hpos i)
    rw [times, hstep, Option.bind_some, ih, Nat.add_assoc, Nat.add_comm 1 k]

/-! ## Picking -/

/-- The least of those beyond, or of all. -/
def pickNext (beyond : α → Bool) (l : List α) : Option α := (l.filter beyond).min?.or l.min?

variable {beyond : α → Bool}

/-- What is beyond is picked from first. -/
theorem pickNext_eq_iff : pickNext beyond l = some g ↔ g ∈ l ∧
      ((beyond g = true ∧ ∀ t ∈ l, beyond t = true → g ≤ t) ∨
        ((∀ t ∈ l, beyond t = false) ∧ ∀ t ∈ l, g ≤ t)) := by
  unfold pickNext
  cases hmin : (l.filter beyond).min? with
  | none =>
    rw [List.min?_eq_none_iff, List.filter_eq_nil_iff] at hmin
    rw [Option.none_or, List.min?_eq_some_iff]
    constructor
    · rintro ⟨hmem, hle⟩
      exact ⟨hmem, .inr ⟨fun t ht => by simpa using hmin t ht, hle⟩⟩
    · rintro ⟨hmem, ⟨hbeyond, -⟩ | ⟨-, hle⟩⟩
      · exact absurd hbeyond (hmin g hmem)
      · exact ⟨hmem, hle⟩
  | some m =>
    rw [List.min?_eq_some_iff] at hmin
    obtain ⟨hm, hle⟩ := hmin
    rw [List.mem_filter] at hm
    rw [Option.some_or, Option.some.injEq]
    constructor
    · rintro rfl
      refine ⟨hm.1, .inl ⟨hm.2, fun t ht hbeyond => ?_⟩⟩
      exact hle t (List.mem_filter.mpr ⟨ht, hbeyond⟩)
    · rintro ⟨hmem, ⟨hbeyond, hleast⟩ | ⟨hnone, -⟩⟩
      · exact le_antisymm (hle g (List.mem_filter.mpr ⟨hmem, hbeyond⟩)) (hleast m hm.1 hm.2)
      · exact absurd hm.2 (by rw [hnone m hm.1]; exact Bool.false_ne_true)

/-- The pick is the next element exactly when every greater one is beyond. -/
theorem pickNext_next_iff (hf : f ∈ l) (hbeyond : ∀ t ∈ l, beyond t = true → f < t)
    (hup : ∀ t ∈ l, ∀ t' ∈ l, t ≤ t' → beyond t = true → beyond t' = true) :
    (∀ g, Next l f g → pickNext beyond l = some g) ↔ ∀ t ∈ l, f < t → beyond t = true := by
  constructor
  · intro h t ht hlt
    obtain ⟨g, hg⟩ := exists_next hf
    rcases hg.least with ⟨hfg, hmin⟩ | ⟨hmax, -⟩
    · rcases pickNext_eq_iff.mp (h g hg) with ⟨-, ⟨hgb, -⟩ | ⟨-, hle⟩⟩
      · exact hup g hg.mem t ht (hmin t ht hlt) hgb
      · exact absurd (hle f hf) (not_le.mpr hfg)
    · exact absurd (hmax t ht) (not_le.mpr hlt)
  · intro h g hg
    rw [pickNext_eq_iff]
    refine ⟨hg.mem, ?_⟩
    rcases hg.least with ⟨hfg, hmin⟩ | ⟨hmax, hmin⟩
    · exact .inl ⟨h g hg.mem hfg, fun t ht hb => hmin t ht (hbeyond t ht hb)⟩
    · refine .inr ⟨fun t ht => ?_, hmin⟩
      rw [← Bool.not_eq_true]
      exact fun hb => absurd (hmax t ht) (not_le.mpr (hbeyond t ht hb))

/-! ## A guard

One looks for what is past a position by more than some margin, with a test that may miss what
is past it by little, and does not go to what is within the margin. -/

/-- The elements on the near side of the margin are `low`, those beyond it `past`; `beyond` is
the test for these. -/
structure Guard (l : List α) where
  beyond : α → Bool
  within : α → Bool
  past : α → Prop
  low : α → Prop
  past_of_beyond : ∀ t ∈ l, beyond t = true → past t
  beyond_of_le : ∀ t t', t ≤ t' → beyond t = true → beyond t' = true
  past_of_le : ∀ t t', t ≤ t' → past t → past t'
  low_of_le : ∀ t t', t ≤ t' → low t → low t'
  within_iff : ∀ t ∈ l, within t = true ↔ low t ∧ ¬past t
  /-- Only the first that is past can be missed. -/
  beyond_of_lt : ∀ t t', past t → t < t' → beyond t' = true

namespace Guard

variable (G : Guard l)

/-- The next element past the position, unless that is within the margin. -/
def seek : Option α := (pickNext G.beyond l).filter fun g => !G.within g

variable {G}

theorem seek_eq_some (hg : pickNext G.beyond l = some g) (hout : G.within g = false) :
    G.seek = some g := by
  rw [seek, hg, Option.filter_some, hout]
  rfl

theorem seek_eq_none (hg : pickNext G.beyond l = some g) (hin : G.within g = true) :
    G.seek = none := by
  rw [seek, hg, Option.filter_some, hin]
  rfl

/-- From an element, with the others outside the margin, the seek goes to the next one exactly
when the test misses none. -/
theorem seek_next_iff (hf : f ∈ l) (hother : ∃ g ∈ l, g ≠ f)
    (hbeyond : ∀ t ∈ l, G.beyond t = true → f < t) (hout : ∀ t ∈ l, t ≠ f → G.within t = false) :
    (∀ g, Next l f g → G.seek = some g) ↔ ∀ t ∈ l, f < t → G.beyond t = true := by
  have hne : ∀ g, Next l f g → g ≠ f := by
    rintro g hg rfl
    obtain ⟨t, ht, htg⟩ := hother
    rcases hg.least with ⟨hlt, -⟩ | ⟨hmax, hmin⟩
    · exact lt_irrefl _ hlt
    · exact htg (le_antisymm (hmax t ht) (hmin t ht))
  rw [← pickNext_next_iff hf hbeyond fun t _ t' _ => G.beyond_of_le t t']
  constructor
  · intro h g hg
    have hseek := h g hg
    rw [seek, Option.filter_eq_some_iff] at hseek
    exact hseek.1
  · intro h g hg
    exact seek_eq_some (h g hg) (hout g hg.mem (hne g hg))

/-- The seek finds nothing exactly where everything is within the margin, unless the test misses
the last element and all others are within the margin. -/
theorem seek_none_iff (hne : ∀ s ∈ l, ∃ g ∈ l, g ≠ s) :
    (G.seek = none ↔ ∀ t ∈ l, G.within t = true) ↔
      ¬∃ s ∈ l, G.past s ∧ G.beyond s = false ∧ ∀ t ∈ l, G.low t ∧ t ≤ s := by
  constructor
  · rintro h ⟨s, hs, hpast, hmissed, hall⟩
    have hnone : ∀ t ∈ l, G.beyond t = false := by
      intro t ht
      rw [← Bool.not_eq_true]
      intro hb
      rw [G.beyond_of_le t s (hall t ht).2 hb] at hmissed
      cases hmissed
    obtain ⟨g, hg⟩ := Option.isSome_iff_exists.mp (List.isSome_min?_of_mem hs)
    have hpick : pickNext G.beyond l = some g := by
      rw [pickNext_eq_iff]
      rw [List.min?_eq_some_iff] at hg
      exact ⟨hg.1, .inr ⟨hnone, hg.2⟩⟩
    rw [List.min?_eq_some_iff] at hg
    have hgs : g < s := by
      obtain ⟨t, ht, hts⟩ := hne s hs
      exact (hg.2 t ht).trans_lt (lt_of_le_of_ne (hall t ht).2 hts)
    have hin : G.within g = true := by
      rw [G.within_iff g hg.1]
      refine ⟨(hall g hg.1).1, fun hgp => ?_⟩
      rw [G.beyond_of_lt g s hgp hgs] at hmissed
      cases hmissed
    have hall' := h.mp (seek_eq_none hpick hin)
    exact ((G.within_iff s hs).mp (hall' s hs)).2 hpast
  · intro hno
    constructor
    · intro hseek t ht
      obtain ⟨g, hg⟩ : ∃ g, pickNext G.beyond l = some g := by
        obtain ⟨g, hg⟩ := Option.isSome_iff_exists.mp (List.isSome_min?_of_mem ht)
        cases hfirst : (l.filter G.beyond).min? with
        | none => exact ⟨g, by rw [pickNext, hfirst, hg, Option.none_or]⟩
        | some m => exact ⟨m, by rw [pickNext, hfirst, Option.some_or]⟩
      have hin : G.within g = true := by
        by_contra hout
        rw [seek_eq_some hg (Bool.not_eq_true _ ▸ hout)] at hseek
        cases hseek
      obtain ⟨hmem, hleast⟩ := pickNext_eq_iff.mp hg
      obtain ⟨hlow, hpast⟩ := (G.within_iff g hmem).mp hin
      rcases hleast with ⟨hb, -⟩ | ⟨hnone, hmin⟩
      · exact absurd (G.past_of_beyond g hmem hb) hpast
      · rw [G.within_iff t ht]
        refine ⟨G.low_of_le g t (hmin t ht) hlow, fun htp => hno ?_⟩
        obtain ⟨s, hs⟩ := Option.isSome_iff_exists.mp (List.isSome_max?_of_mem ht)
        rw [List.max?_eq_some_iff] at hs
        refine ⟨s, hs.1, G.past_of_le t s (hs.2 t ht) htp, hnone s hs.1, fun t' ht' => ?_⟩
        exact ⟨G.low_of_le g t' (hmin t' ht') hlow, hs.2 t' ht'⟩
    · intro hall
      cases hpick : pickNext G.beyond l with
      | none =>
        rw [seek, hpick]
        rfl
      | some g => exact seek_eq_none hpick (hall g (pickNext_eq_iff.mp hpick).1)

end Guard

end CwStation.Cyclic
