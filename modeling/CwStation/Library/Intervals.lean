import Mathlib.Algebra.BigOperators.Group.List.Basic
import Mathlib.Algebra.Order.BigOperators.Group.List
import Mathlib.Data.Int.ConditionallyCompleteOrder
import Mathlib.Data.Int.Interval
import Mathlib.Order.Basic
import Mathlib.Order.Interval.Finset.Nat
import Mathlib.Tactic.Common
import Mathlib.Tactic.Linarith

/-! # Merging intervals

Half-open intervals, sorted by where they begin, are merged where they touch. What they cover
stays covered, and the merged ones lie apart, so that counts add up. -/

namespace CwStation.Intervals

variable {α : Type} [LinearOrder α]

def Within (x : α) (r : α × α) : Prop := r.1 ≤ x ∧ x < r.2

instance (x : α) (r : α × α) : Decidable (Within x r) := inferInstanceAs (Decidable (_ ∧ _))

/-- The interval in front grows for as long as the next one touches it. -/
def merge : Option (α × α) → List (α × α) → List (α × α)
  | last, [] => last.toList
  | none, r :: rs => merge (some r) rs
  | some last, r :: rs =>
      if last.2 < r.1 then last :: merge (some r) rs else merge (some (last.1, max last.2 r.2)) rs

variable {last : Option (α × α)} {rs : List (α × α)} {x : α}

theorem within_map_iff {β : Type} {f : β → α × α} {l : List β} :
    (∃ r ∈ l.map f, Within x r) ↔ ∃ b ∈ l, Within x (f b) := by
  constructor
  · rintro ⟨r, hr, hx⟩
    obtain ⟨b, hb, rfl⟩ := List.mem_map.mp hr
    exact ⟨b, hb, hx⟩
  · rintro ⟨b, hb, hx⟩
    exact ⟨f b, List.mem_map_of_mem hb, hx⟩

theorem within_merge_iff (h : (last.toList ++ rs).Pairwise fun r r' => r.1 ≤ r'.1) :
    (∃ r ∈ merge last rs, Within x r) ↔ ∃ r ∈ last.toList ++ rs, Within x r := by
  induction rs generalizing last with
  | nil =>
    rw [List.append_nil]
    cases last <;> rfl
  | cons r rs ih =>
    cases last with
    | none => exact ih h
    | some l =>
      have hlr : l.1 ≤ r.1 := (List.pairwise_cons.mp h).1 r (.head _)
      have hrest : ((some r).toList ++ rs).Pairwise fun r r' => r.1 ≤ r'.1 :=
        (List.pairwise_cons.mp h).2
      rw [merge]
      by_cases hgap : l.2 < r.1
      · rw [if_pos hgap]
        simp only [List.exists_mem_cons_iff, Option.toList_some, List.singleton_append]
        rw [ih hrest]
        simp only [Option.toList_some, List.singleton_append, List.exists_mem_cons_iff]
      · rw [if_neg hgap]
        rw [not_lt] at hgap
        have hgrown : ((some (l.1, max l.2 r.2)).toList ++ rs).Pairwise
            fun r r' => r.1 ≤ r'.1 := by
          refine List.pairwise_cons.mpr ⟨fun r' hr' => ?_, (List.pairwise_cons.mp hrest).2⟩
          exact (List.pairwise_cons.mp h).1 r' (.tail _ hr')
        rw [ih hgrown]
        simp only [Option.toList_some, List.singleton_append, List.exists_mem_cons_iff]
        rw [← or_assoc]
        apply or_congr_left
        simp only [Within, lt_max_iff]
        constructor
        · rintro ⟨hl, hx | hx⟩
          · exact .inl ⟨hl, hx⟩
          · by_cases hr : r.1 ≤ x
            · exact .inr ⟨hr, hx⟩
            · exact .inl ⟨hl, (not_le.mp hr).trans_le hgap⟩
        · rintro (⟨hl, hx⟩ | ⟨hr, hx⟩)
          · exact ⟨hl, .inl hx⟩
          · exact ⟨hlr.trans hr, .inr hx⟩

/-- The merged intervals begin where one of the others does. -/
theorem exists_start_of_merge {r : α × α} (h : r ∈ merge last rs) :
    ∃ r' ∈ last.toList ++ rs, r'.1 = r.1 := by
  induction rs generalizing last with
  | nil => exact ⟨r, by simpa [merge] using h, rfl⟩
  | cons r₁ rs ih =>
    cases last with
    | none => exact ih h
    | some l =>
      rw [merge] at h
      by_cases hgap : l.2 < r₁.1
      · rw [if_pos hgap] at h
        rcases List.mem_cons.mp h with rfl | h
        · exact ⟨r, .head _, rfl⟩
        · obtain ⟨r', hr', hstart⟩ := ih h
          exact ⟨r', .tail _ hr', hstart⟩
      · rw [if_neg hgap] at h
        obtain ⟨r', hr', hstart⟩ := ih h
        rcases List.mem_cons.mp hr' with rfl | hr'
        · exact ⟨l, .head _, hstart⟩
        · exact ⟨r', .tail _ (.tail _ hr'), hstart⟩

theorem merge_apart (h : (last.toList ++ rs).Pairwise fun r r' => r.1 ≤ r'.1) :
    (merge last rs).Pairwise fun r r' => r.2 < r'.1 := by
  induction rs generalizing last with
  | nil => cases last <;> simp [merge]
  | cons r rs ih =>
    cases last with
    | none => exact ih h
    | some l =>
      have hrest : ((some r).toList ++ rs).Pairwise fun r r' => r.1 ≤ r'.1 :=
        (List.pairwise_cons.mp h).2
      rw [merge]
      by_cases hgap : l.2 < r.1
      · rw [if_pos hgap]
        refine List.pairwise_cons.mpr ⟨fun r' hr' => ?_, ih hrest⟩
        obtain ⟨r₁, hr₁, hstart⟩ := exists_start_of_merge hr'
        rw [← hstart]
        rcases List.mem_cons.mp hr₁ with rfl | hr₁
        · exact hgap
        · exact hgap.trans_le ((List.pairwise_cons.mp hrest).1 r₁ hr₁)
      · rw [if_neg hgap]
        apply ih
        refine List.pairwise_cons.mpr ⟨fun r' hr' => ?_, (List.pairwise_cons.mp hrest).2⟩
        exact (List.pairwise_cons.mp h).1 r' (.tail _ hr')

theorem merge_inside {lo hi : α}
    (h : ∀ r ∈ last.toList ++ rs, lo ≤ r.1 ∧ r.1 ≤ r.2 ∧ r.2 ≤ hi) :
    ∀ r ∈ merge last rs, lo ≤ r.1 ∧ r.1 ≤ r.2 ∧ r.2 ≤ hi := by
  induction rs generalizing last with
  | nil => simpa [merge] using h
  | cons r rs ih =>
    cases last with
    | none => exact ih h
    | some l =>
      have hl := h l (.head _)
      have hr := h r (.tail _ (.head _))
      have hrest : ∀ r' ∈ rs, lo ≤ r'.1 ∧ r'.1 ≤ r'.2 ∧ r'.2 ≤ hi :=
        fun r' hr' => h r' (.tail _ (.tail _ hr'))
      rw [merge]
      by_cases hgap : l.2 < r.1
      · rw [if_pos hgap]
        exact List.forall_mem_cons.mpr ⟨hl, ih (List.forall_mem_cons.mpr ⟨hr, hrest⟩)⟩
      · rw [if_neg hgap]
        refine ih (List.forall_mem_cons.mpr ⟨⟨hl.1, ?_, max_le hl.2.2 hr.2.2⟩, hrest⟩)
        exact hl.2.1.trans (le_max_left _ _)

/-! ## Counting -/

/-- The lengths of intervals that lie apart add up to how much they cover. -/
theorem sum_lengths {lo hi : ℤ} {rs : List (ℤ × ℤ)}
    (hinside : ∀ r ∈ rs, lo ≤ r.1 ∧ r.1 ≤ r.2 ∧ r.2 ≤ hi)
    (h : rs.Pairwise fun r r' => r.2 < r'.1) :
    (rs.map fun r => r.2 - r.1).sum =
      ((Finset.Ico lo hi).filter fun t => ∃ r ∈ rs, Within t r).card := by
  induction rs with
  | nil => simp
  | cons r rs ih =>
    rw [List.pairwise_cons] at h
    obtain ⟨hr, hrest⟩ := List.forall_mem_cons.mp hinside
    have hsplit : ((Finset.Ico lo hi).filter fun t => ∃ r' ∈ r :: rs, Within t r') =
        Finset.Ico r.1 r.2 ∪ (Finset.Ico lo hi).filter fun t => ∃ r' ∈ rs, Within t r' := by
      ext t
      rw [Finset.mem_union, Finset.mem_filter, Finset.mem_filter, Finset.mem_Ico, Finset.mem_Ico,
        List.exists_mem_cons_iff]
      constructor
      · rintro ⟨hbounds, hin | hin⟩
        · exact .inl hin
        · exact .inr ⟨hbounds, hin⟩
      · rintro (hin | hin)
        · exact ⟨⟨hr.1.trans hin.1, hin.2.trans_le hr.2.2⟩, .inl hin⟩
        · exact ⟨hin.1, .inr hin.2⟩
    have hdisjoint : Disjoint (Finset.Ico r.1 r.2)
        ((Finset.Ico lo hi).filter fun t => ∃ r' ∈ rs, Within t r') := by
      rw [Finset.disjoint_left]
      intro t ht hother
      obtain ⟨r', hr', hin⟩ := (Finset.mem_filter.mp hother).2
      exact absurd ((Finset.mem_Ico.mp ht).2.trans (h.1 r' hr')) (not_lt.mpr hin.1)
    rw [hsplit, Finset.card_union_of_disjoint hdisjoint, List.map_cons, List.sum_cons,
      ih hrest h.2, Int.card_Ico, Nat.cast_add, Int.toNat_of_nonneg (sub_nonneg.mpr hr.2.1)]

/-- Intervals that lie apart are counted one by one. -/
theorem sum_countP_within {β : Type} (f : β → α) (l : List β)
    (h : rs.Pairwise fun r r' => r.2 < r'.1) :
    (rs.map fun r => l.countP fun b => Within (f b) r).sum =
      l.countP fun b => ∃ r ∈ rs, Within (f b) r := by
  induction rs with
  | nil => simp
  | cons r rs ih =>
    rw [List.pairwise_cons] at h
    rw [List.map_cons, List.sum_cons, ih h.2]
    clear ih
    induction l with
    | nil => rfl
    | cons b l ihl =>
      have hone : Within (f b) r → ¬∃ r' ∈ rs, Within (f b) r' := by
        rintro ⟨-, hlt⟩ ⟨r', hr', hle, -⟩
        exact absurd ((hlt.trans (h.1 r' hr')).trans_le hle) (lt_irrefl _)
      simp only [List.countP_cons, decide_eq_true_eq, List.exists_mem_cons_iff] at ihl ⊢
      by_cases hr : Within (f b) r
      · simp only [hr, hone hr, true_or, if_true, if_false]
        omega
      · simp only [hr, false_or, if_false]
        omega

end CwStation.Intervals

/-! ## Spans along a timeline

Each element of a list lasts from its start to its stop, and each is over when the next begins. -/

namespace CwStation.Timeline

variable {α β : Type*} [Preorder β] {start stop : α → β} {x : α} {xs : List α} {t t' e : β}

/-! ## Spans up to a time -/

/-- The spans lie one behind the other and are over by `t`. -/
structure Laid (start stop : α → β) (xs : List α) (t : β) : Prop where
  forward : ∀ x ∈ xs, start x ≤ stop x
  ended : ∀ x ∈ xs, stop x ≤ t
  apart : xs.Pairwise fun x x' => stop x ≤ start x'

theorem laid_nil : Laid start stop [] t :=
  ⟨by simp, by simp, List.Pairwise.nil⟩

theorem Laid.mono (h : Laid start stop xs t) (hle : t ≤ t') : Laid start stop xs t' :=
  ⟨h.forward, fun x hx => (h.ended x hx).trans hle, h.apart⟩

theorem Laid.append (h : Laid start stop xs t) (hstart : t ≤ start x) (hx : start x ≤ stop x) :
    Laid start stop (xs ++ [x]) (stop x) where
  forward := by
    intro y hy
    rcases List.mem_append.mp hy with hy | hy
    · exact h.forward y hy
    · exact List.mem_singleton.mp hy ▸ hx
  ended := by
    intro y hy
    rcases List.mem_append.mp hy with hy | hy
    · exact ((h.ended y hy).trans hstart).trans hx
    · exact List.mem_singleton.mp hy ▸ le_rfl
  apart := by
    refine List.pairwise_append.mpr ⟨h.apart, List.pairwise_singleton _ _, ?_⟩
    intro y hy z hz
    rw [List.mem_singleton.mp hz]
    exact (h.ended y hy).trans hstart

/-! ## Spans between two times -/

/-- The spans lie one behind the other between `t` and `e`. -/
def Stacked (start stop : α → β) : β → List α → β → Prop
  | t, [], e => t ≤ e
  | t, x :: xs, e => t ≤ start x ∧ start x ≤ stop x ∧ Stacked start stop (stop x) xs e

theorem Stacked.le (h : Stacked start stop t xs e) : t ≤ e := by
  induction xs generalizing t with
  | nil => exact h
  | cons x xs ih => exact (h.1.trans h.2.1).trans (ih h.2.2)

theorem Stacked.append (h : Stacked start stop t xs e) (hstart : e ≤ start x)
    (hx : start x ≤ stop x) : Stacked start stop t (xs ++ [x]) (stop x) := by
  induction xs generalizing t with
  | nil => exact ⟨le_trans h hstart, hx, le_rfl⟩
  | cons y xs ih => exact ⟨h.1, h.2.1, ih h.2.2⟩

theorem Stacked.mono {e' : β} (h : Stacked start stop t xs e) (hle : e ≤ e') :
    Stacked start stop t xs e' := by
  induction xs generalizing t with
  | nil => exact le_trans h hle
  | cons x xs ih => exact ⟨h.1, h.2.1, ih h.2.2⟩

end CwStation.Timeline

/-! ## Counting by conditions

Conditions that every element meets exactly once count the elements. -/

namespace CwStation.Counting

variable {α : Type}

/-- Counting the elements of each condition and the conditions of each element comes to
the same. -/
theorem sum_countP_comm (conds : List (α → Bool)) (l : List α) :
    (conds.map fun c => l.countP c).sum = (l.map fun x => conds.countP fun c => c x).sum := by
  induction conds with
  | nil => simp
  | cons c conds ih =>
    rw [List.map_cons, List.sum_cons, ih]
    clear ih
    induction l with
    | nil => rfl
    | cons x l ihl =>
      simp only [List.countP_cons, List.map_cons, List.sum_cons] at ihl ⊢
      omega

theorem sum_countP_of_partition (conds : List (α → Bool)) (l : List α)
    (h : ∀ x ∈ l, (conds.countP fun c => c x) = 1) :
    (conds.map fun c => l.countP c).sum = l.length := by
  rw [sum_countP_comm]
  induction l with
  | nil => rfl
  | cons x l ih =>
    rw [List.map_cons, List.sum_cons, h x (by simp), ih fun y hy => h y (by simp [hy]),
      List.length_cons]
    omega

/-- What a test holds of, less what another holds of besides. -/
theorem countP_sub_countP_filter {β : Type} (l : List β) (p q : β → Bool) :
    ((l.countP p : ℕ) : ℤ) - ((l.filter p).countP q : ℕ) = (l.countP fun b => p b && !q b : ℕ) := by
  rw [List.countP_filter]
  induction l with
  | nil => rfl
  | cons b l ih =>
    simp only [List.countP_cons]
    cases p b <;> cases q b <;> simp <;> omega

end CwStation.Counting
