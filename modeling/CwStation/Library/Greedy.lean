import Mathlib.Data.List.Pairwise
import Mathlib.Tactic.Common

/-! # Keeping what is not close to something kept

Elements come one after the other. Each is placed behind those kept so far, unless one of them
is close to it. -/

namespace CwStation.Greedy

variable {α β : Type} (close : α → β → Bool) (place : α → β)

def keep : List β → List α → List β
  | kept, [] => kept
  | kept, a :: rest => if kept.any (close a) then keep kept rest else keep (kept ++ [place a]) rest

/-- `p` holds between everything kept and each element that is placed behind it. -/
def Chooses (p : β → α → Prop) : List β → List α → Prop
  | _, [] => True
  | kept, a :: rest =>
      if kept.any (close a) then Chooses p kept rest
      else (∀ b ∈ kept, p b a) ∧ Chooses p (kept ++ [place a]) rest

variable {close place} {kept : List β} {l : List α}

theorem keep_cons_of_close {a : α} (h : kept.any (close a) = true) :
    keep close place kept (a :: l) = keep close place kept l := by
  rw [keep, if_pos h]

theorem keep_cons_of_not_close {a : α} (h : ¬kept.any (close a) = true) :
    keep close place kept (a :: l) = keep close place (kept ++ [place a]) l := by
  rw [keep, if_neg h]

/-- What has been kept stays in front. -/
theorem keep_sublist : kept.Sublist (keep close place kept l) := by
  induction l generalizing kept with
  | nil => exact List.Sublist.refl _
  | cons a l ih =>
    by_cases hclose : kept.any (close a) = true
    · rw [keep_cons_of_close hclose]
      exact ih
    · rw [keep_cons_of_not_close hclose]
      exact (List.sublist_append_left _ _).trans ih

/-- What has been kept stays. -/
theorem mem_keep_of_mem {b : β} (h : b ∈ kept) : b ∈ keep close place kept l :=
  keep_sublist.subset h

/-- Everything kept is some element, placed. -/
theorem exists_of_mem_keep {b : β} (h : b ∈ keep close place kept l) :
    b ∈ kept ∨ ∃ a ∈ l, b = place a := by
  induction l generalizing kept with
  | nil => exact .inl h
  | cons a l ih =>
    by_cases hclose : kept.any (close a) = true
    · rw [keep_cons_of_close hclose] at h
      rcases ih h with hkept | ⟨a', ha', hb⟩
      · exact .inl hkept
      · exact .inr ⟨a', .tail _ ha', hb⟩
    · rw [keep_cons_of_not_close hclose] at h
      rcases ih h with hkept | ⟨a', ha', hb⟩
      · rcases List.mem_append.mp hkept with hkept | hkept
        · exact .inl hkept
        · exact .inr ⟨a, .head _, List.mem_singleton.mp hkept⟩
      · exact .inr ⟨a', .tail _ ha', hb⟩

/-- An element is placed, or close to one that was kept no later. -/
theorem keep_covers {R : α → α → Prop} (hl : l.Pairwise R) {a : α} (ha : a ∈ l) :
    place a ∈ keep close place kept l ∨
      ∃ b ∈ keep close place kept l, close a b = true ∧
        (b ∈ kept ∨ ∃ a' ∈ l, R a' a ∧ b = place a') := by
  induction l generalizing kept with
  | nil => cases ha
  | cons x l ih =>
    rw [List.pairwise_cons] at hl
    by_cases hclose : kept.any (close x) = true
    · rw [keep_cons_of_close hclose]
      rcases List.mem_cons.mp ha with rfl | ha
      · obtain ⟨b, hb, hab⟩ := List.any_eq_true.mp hclose
        exact .inr ⟨b, mem_keep_of_mem hb, hab, .inl hb⟩
      · rcases @ih kept hl.2 ha with hplaced | ⟨b, hb, hab, hfrom⟩
        · exact .inl hplaced
        · refine .inr ⟨b, hb, hab, hfrom.imp_right ?_⟩
          rintro ⟨a', ha', hr, hplace⟩
          exact ⟨a', .tail _ ha', hr, hplace⟩
    · rw [keep_cons_of_not_close hclose]
      rcases List.mem_cons.mp ha with rfl | ha
      · exact .inl (mem_keep_of_mem (by simp))
      · rcases @ih (kept ++ [place x]) hl.2 ha with hplaced | ⟨b, hb, hab, hfrom⟩
        · exact .inl hplaced
        · refine .inr ⟨b, hb, hab, ?_⟩
          rcases hfrom with hkept | ⟨a', ha', hr, hplace⟩
          · rcases List.mem_append.mp hkept with hkept | hkept
            · exact .inl hkept
            · exact .inr ⟨x, .head _, hl.1 a ha, List.mem_singleton.mp hkept⟩
          · exact .inr ⟨a', .tail _ ha', hr, hplace⟩

/-- No element was close to one kept before it. -/
theorem keep_apart (h : kept.Pairwise fun b b' => ∃ a, b' = place a ∧ close a b = false) :
    (keep close place kept l).Pairwise fun b b' => ∃ a, b' = place a ∧ close a b = false := by
  induction l generalizing kept with
  | nil => exact h
  | cons x l ih =>
    by_cases hclose : kept.any (close x) = true
    · rw [keep_cons_of_close hclose]
      exact ih h
    · rw [keep_cons_of_not_close hclose]
      apply ih
      rw [List.pairwise_append]
      refine ⟨h, List.pairwise_singleton _ _, fun b hb b' hb' => ?_⟩
      refine ⟨x, List.mem_singleton.mp hb', ?_⟩
      rw [← Bool.not_eq_true]
      exact fun hxb => hclose (List.any_eq_true.mpr ⟨b, hb, hxb⟩)

/-! ## What holds of every choice -/

theorem chooses_cons_of_close {p : β → α → Prop} {a : α} (h : kept.any (close a) = true) :
    Chooses close place p kept (a :: l) ↔ Chooses close place p kept l := by
  rw [Chooses, if_pos h]

theorem chooses_cons_of_not_close {p : β → α → Prop} {a : α} (h : ¬kept.any (close a) = true) :
    Chooses close place p kept (a :: l) ↔
      (∀ b ∈ kept, p b a) ∧ Chooses close place p (kept ++ [place a]) l := by
  rw [Chooses, if_neg h]

/-- What is kept is related pairwise exactly if each choice is related to those before it. -/
theorem keep_pairwise_iff {R : β → β → Prop} (h : kept.Pairwise R) :
    (keep close place kept l).Pairwise R ↔
      Chooses close place (fun b a => R b (place a)) kept l := by
  induction l generalizing kept with
  | nil => exact iff_of_true h trivial
  | cons a l ih =>
    by_cases hclose : kept.any (close a) = true
    · rw [keep_cons_of_close hclose, chooses_cons_of_close hclose]
      exact ih h
    · rw [keep_cons_of_not_close hclose, chooses_cons_of_not_close hclose]
      by_cases hnew : ∀ b ∈ kept, R b (place a)
      · have hall : (kept ++ [place a]).Pairwise R := by
          rw [List.pairwise_append]
          exact ⟨h, List.pairwise_singleton _ _, fun b hb b' hb' =>
            List.mem_singleton.mp hb' ▸ hnew b hb⟩
        rw [ih hall]
        exact (and_iff_right hnew).symm
      · refine iff_of_false (fun hall => hnew fun b hb => ?_) fun hall => hnew hall.1
        have hfront : (kept ++ [place a]).Pairwise R := hall.sublist keep_sublist
        exact (List.pairwise_append.mp hfront).2.2 b hb _ List.mem_cons_self

/-- The elements that are not close decide. -/
theorem chooses_congr {p q : β → α → Prop} {I : β → Prop} (hkept : ∀ b ∈ kept, I b)
    (hplace : ∀ a ∈ l, I (place a))
    (hpq : ∀ b a, I b → close a b = false → (p b a ↔ q b a)) :
    Chooses close place p kept l ↔ Chooses close place q kept l := by
  induction l generalizing kept with
  | nil => exact Iff.rfl
  | cons a l ih =>
    have hrest : ∀ a ∈ l, I (place a) := fun a ha => hplace a (List.mem_cons_of_mem _ ha)
    by_cases hclose : kept.any (close a) = true
    · rw [chooses_cons_of_close hclose, chooses_cons_of_close hclose]
      exact ih hkept hrest
    · rw [chooses_cons_of_not_close hclose, chooses_cons_of_not_close hclose]
      have hfar : ∀ b ∈ kept, close a b = false := by
        intro b hb
        rw [← Bool.not_eq_true]
        exact fun hab => hclose (List.any_eq_true.mpr ⟨b, hb, hab⟩)
      apply and_congr
      · exact forall₂_congr fun b hb => hpq b a (hkept b hb) (hfar b hb)
      · apply ih _ hrest
        intro b hb
        rcases List.mem_append.mp hb with hb | hb
        · exact hkept b hb
        · exact List.mem_singleton.mp hb ▸ hplace a List.mem_cons_self

end CwStation.Greedy
