import Mathlib.Data.List.Dedup
import Mathlib.Data.List.Sort
import Mathlib.Data.List.TakeWhile
import Mathlib.Data.Multiset.AddSub
import Mathlib.Tactic.Common

/-! # Pages of a sorted collection

Rows are sorted by keys that need not tell them apart, so that one collection has several
arrangements. Pages that are cut from different arrangements fit together if and only if no
page boundary stands between rows with equal keys. -/

namespace CwStation.Pages

/-! ## Weak orders -/

/-- An order in which different elements may be equal. -/
structure WeakOrder (α : Type*) where
  le : α → α → Bool
  total : ∀ a b, le a b = true ∨ le b a = true
  trans : ∀ a b c, le a b = true → le b c = true → le a c = true

namespace WeakOrder

variable {α : Type*} (o : WeakOrder α)

theorem le_of_not_le {a b : α} (h : o.le b a = false) : o.le a b = true := by
  rcases o.total a b with hab | hba
  · exact hab
  · rw [h] at hba
    cases hba

/-- All elements are equal. -/
def flat (α : Type*) : WeakOrder α where
  le _ _ := true
  total _ _ := .inl rfl
  trans _ _ _ _ _ := rfl

/-- The other way round. -/
def reverse : WeakOrder α where
  le a b := o.le b a
  total a b := o.total b a
  trans a b c hab hbc := o.trans c b a hbc hab

/-- By `o`, and where it does not decide, by `o'`. -/
def lex (o o' : WeakOrder α) : WeakOrder α where
  le a b := o.le a b && (!o.le b a || o'.le a b)
  total a b := by
    rcases o.total a b with h | h <;> rcases o'.total a b with h' | h' <;>
      cases hab : o.le a b <;> cases hba : o.le b a <;> simp_all
  trans a b c hab hbc := by
    simp only [Bool.and_eq_true, Bool.or_eq_true, Bool.not_eq_true'] at hab hbc ⊢
    refine ⟨o.trans a b c hab.1 hbc.1, ?_⟩
    cases hca : o.le c a with
    | false => exact .inl rfl
    | true =>
        have hba : o.le b a = true := o.trans b c a hbc.1 hca
        have hcb : o.le c b = true := o.trans c a b hca hab.1
        rw [hba] at hab
        rw [hcb] at hbc
        refine .inr (o'.trans a b c ?_ ?_)
        · simpa using hab.2
        · simpa using hbc.2

end WeakOrder

/-! ## Arrangements -/

variable {α : Type*} {o : WeakOrder α} {rows arr arr' : List α}

/-- An order in which the rows may be returned. -/
structure Arranged (o : WeakOrder α) (rows arr : List α) : Prop where
  perm : arr.Perm rows
  sorted : arr.Pairwise fun a b => o.le a b = true

theorem Arranged.length (h : Arranged o rows arr) : arr.length = rows.length := h.perm.length_eq

/-- Sorting by insertion. -/
def arrange (o : WeakOrder α) (rows : List α) : List α :=
  rows.insertionSort fun a b => o.le a b = true

theorem arranged_arrange (o : WeakOrder α) (rows : List α) : Arranged o rows (arrange o rows) := by
  have htotal : Std.Total fun a b : α => o.le a b = true := ⟨o.total⟩
  have htrans : IsTrans α fun a b => o.le a b = true := ⟨o.trans⟩
  exact ⟨List.perm_insertionSort _ rows, List.pairwise_insertionSort _ rows⟩

/-- The first `p` rows are told apart from the others by the order. -/
def Separated (o : WeakOrder α) (rows : List α) (p : ℕ) : Prop :=
  ∃ front back : List α, (front ++ back).Perm rows ∧ front.length = p ∧
    ∀ a ∈ front, ∀ b ∈ back, o.le b a = false

/-- Then every arrangement begins with them. -/
theorem take_perm [DecidableEq α] {front back : List α} (hperm : (front ++ back).Perm rows)
    (hapart : ∀ a ∈ front, ∀ b ∈ back, o.le b a = false) (h : Arranged o rows arr) :
    (arr.take front.length).Perm front := by
  have hlength : front.length ≤ arr.length := by
    rw [h.length, ← hperm.length_eq, List.length_append]
    exact Nat.le_add_right _ _
  have hsplit : (arr.take front.length ++ arr.drop front.length).Perm (front ++ back) := by
    rw [List.take_append_drop]
    exact h.perm.trans hperm.symm
  have hcard : (arr.take front.length).length = front.length := by
    rw [List.length_take]
    omega
  have hsorted : ∀ x ∈ arr.take front.length, ∀ y ∈ arr.drop front.length, o.le x y = true := by
    have hpairs := h.sorted
    rw [← List.take_append_drop front.length arr] at hpairs
    exact (List.pairwise_append.mp hpairs).2.2
  generalize arr.take front.length = a at hsplit hcard hsorted ⊢
  generalize arr.drop front.length = b at hsplit hsorted
  have hcount : ∀ x, a.count x + b.count x = front.count x + back.count x := fun x => by
    rw [← List.count_append, ← List.count_append]
    exact hsplit.count_eq x
  -- a row too many in `a` would come from `back`, and push a row of `front` behind it
  have hle : ∀ x, a.count x ≤ front.count x := by
    by_contra hno
    push Not at hno
    obtain ⟨x, hx⟩ := hno
    have hxa : x ∈ a := List.count_pos_iff.mp (by omega)
    have hxback : x ∈ back := List.count_pos_iff.mp (by have := hcount x; omega)
    obtain ⟨y, hy⟩ : ∃ y, a.count y < front.count y := by
      by_contra hall
      push Not at hall
      have hsub : List.Subperm front a := List.subperm_ext_iff.mpr fun y _ => hall y
      have hsame := hsub.perm_of_length_le (by omega)
      rw [hsame.count_eq] at hx
      omega
    have hyfront : y ∈ front := List.count_pos_iff.mp (by omega)
    have hyb : y ∈ b := List.count_pos_iff.mp (by have := hcount y; omega)
    have hxy := hsorted x hxa y hyb
    rw [hapart y hyfront x hxback] at hxy
    cases hxy
  exact (List.subperm_ext_iff.mpr fun x _ => hle x).perm_of_length_le (by omega)

theorem Separated.take_perm [DecidableEq α] {p : ℕ} (h : Separated o rows p)
    (harr : Arranged o rows arr) (harr' : Arranged o rows arr') :
    (arr.take p).Perm (arr'.take p) := by
  obtain ⟨front, back, hperm, rfl, hapart⟩ := h
  exact (Pages.take_perm hperm hapart harr).trans (Pages.take_perm hperm hapart harr').symm

/-! ## Pages -/

/-- The page number `k`, counted from zero, of size `s`. -/
def page (s k : ℕ) (arr : List α) : List α := (arr.drop (k * s)).take s

theorem take_succ_page (s k : ℕ) (arr : List α) :
    arr.take ((k + 1) * s) = arr.take (k * s) ++ page s k arr := by
  rw [page, Nat.succ_mul, List.take_add]

/-- No page boundary stands between rows with equal keys. -/
def Untied (o : WeakOrder α) (rows : List α) (s : ℕ) : Prop :=
  ∀ k, 0 < k → k * s < rows.length → Separated o rows (k * s)

theorem Untied.take_perm [DecidableEq α] {s : ℕ} (h : Untied o rows s) (k : ℕ)
    (harr : Arranged o rows arr) (harr' : Arranged o rows arr') :
    (arr.take (k * s)).Perm (arr'.take (k * s)) := by
  by_cases hzero : k = 0
  · simp [hzero]
  · by_cases hend : k * s < rows.length
    · exact (h k (Nat.pos_of_ne_zero hzero) hend).take_perm harr harr'
    · rw [not_lt] at hend
      rw [List.take_of_length_le (harr.length ▸ hend), List.take_of_length_le (harr'.length ▸ hend)]
      exact harr.perm.trans harr'.perm.symm

/-- Pages cut from any arrangements fit together. -/
theorem Untied.pages_perm [DecidableEq α] {s : ℕ} (h : Untied o rows s) {arrs : ℕ → List α}
    (harrs : ∀ k, Arranged o rows (arrs k)) (n : ℕ) :
    ((List.range n).flatMap fun k => page s k (arrs k)).Perm ((arrs n).take (n * s)) := by
  induction n with
  | zero => simp
  | succ n ih =>
    rw [List.range_succ, List.flatMap_append, List.flatMap_singleton]
    refine ((ih.append_right _).trans ?_).trans (h.take_perm (n + 1) (harrs n) (harrs (n + 1)))
    rw [take_succ_page]

/-! ## Rows that are tied across a boundary -/

/-- The arrangement that puts a row behind all rows that are not above it. -/
theorem arranged_last [DecidableEq α] {a : α} (ha : a ∈ rows) :
    ∃ arr, Arranged o rows arr ∧
      a ∈ arr.drop ((rows.erase a).countP fun x => o.le x a) := by
  have hsorted := arranged_arrange o (rows.erase a)
  generalize arrange o (rows.erase a) = rest at hsorted
  have hcount : (rows.erase a).countP (fun x => o.le x a) = (rest.takeWhile fun x => o.le x a).length := by
    rw [← hsorted.perm.countP_eq]
    have hpairs := hsorted.sorted
    clear hsorted
    induction rest with
    | nil => rfl
    | cons x rest ih =>
      rw [List.pairwise_cons] at hpairs
      cases hx : o.le x a with
      | true => simp [hx, ih hpairs.2]
      | false =>
        have hnone : rest.countP (fun y => o.le y a) = 0 := by
          rw [List.countP_eq_zero]
          intro y hy hya
          rw [o.trans x y a (hpairs.1 y hy) hya] at hx
          cases hx
        simp [hx, hnone]
  have hsplit := List.takeWhile_append_dropWhile (p := fun x => o.le x a) (l := rest)
  have hpairs := hsorted.sorted
  rw [← hsplit, List.pairwise_append] at hpairs
  refine ⟨rest.takeWhile (fun x => o.le x a) ++ a :: rest.dropWhile (fun x => o.le x a),
    ⟨?_, ?_⟩, ?_⟩
  · refine List.perm_middle.trans ?_
    rw [hsplit]
    exact (hsorted.perm.cons a).trans (List.perm_cons_erase ha).symm
  · refine List.pairwise_append.mpr ⟨hpairs.1, List.pairwise_cons.mpr ⟨?_, hpairs.2.1⟩, ?_⟩
    · intro y hy
      cases hdrop : rest.dropWhile (fun x => o.le x a) with
      | nil => simp [hdrop] at hy
      | cons z zs =>
        have hz : o.le z a = false := by
          have hhead := List.head?_dropWhile_not (fun x => o.le x a) rest
          simpa [hdrop] using hhead
        rw [hdrop] at hy hpairs
        rcases List.mem_cons.mp hy with rfl | hy
        · exact o.le_of_not_le hz
        · exact o.trans a z y (o.le_of_not_le hz) ((List.pairwise_cons.mp hpairs.2.1).1 y hy)
    · intro x hx y hy
      rcases List.mem_cons.mp hy with rfl | hy
      · have hle := List.mem_takeWhile_imp hx
        exact hle
      · exact hpairs.2.2 x hx y hy
  · rw [hcount, List.drop_left]
    exact .head _

/-- Where a boundary is not separated, some row stands in front of it in one arrangement and
behind it in another. -/
theorem exists_moved [DecidableEq α] {p : ℕ} (h : ¬Separated o rows p) (hp : p ≤ rows.length) :
    ∃ a arr arr', Arranged o rows arr ∧ Arranged o rows arr' ∧ a ∈ arr.take p ∧
      a ∈ arr'.drop p := by
  have harr := arranged_arrange o rows
  generalize arrange o rows = arr at harr
  have hfront : (arr.take p).length = p := by
    rw [List.length_take, harr.length]
    omega
  obtain ⟨a, ha, b, hb, hba⟩ : ∃ a ∈ arr.take p, ∃ b ∈ arr.drop p, o.le b a = true := by
    by_contra hno
    push Not at hno
    refine h ⟨arr.take p, arr.drop p, ?_, hfront, fun a ha b hb => ?_⟩
    · rw [List.take_append_drop]
      exact harr.perm
    · simpa using hno a ha b hb
  have hmem : a ∈ rows := harr.perm.subset (List.mem_of_mem_take ha)
  obtain ⟨arr', harr', hlast⟩ := arranged_last (o := o) hmem
  refine ⟨a, arr, arr', harr, harr', ha, ?_⟩
  -- the other rows in front of the boundary, and `b`, are not above `a`
  have hpairs := harr.sorted
  rw [← List.take_append_drop p arr, List.pairwise_append] at hpairs
  have hle : ∀ x ∈ arr.take p, o.le x a = true := fun x hx =>
    o.trans x b a (hpairs.2.2 x hx b hb) hba
  have hcount : p ≤ (rows.erase a).countP fun x => o.le x a := by
    have herase : ((arr.take p).erase a ++ arr.drop p).Perm (rows.erase a) := by
      rw [← List.erase_append_left _ ha, List.take_append_drop]
      exact harr.perm.erase a
    rw [← herase.countP_eq, List.countP_append]
    have hall : ((arr.take p).erase a).countP (fun x => o.le x a) = p - 1 := by
      rw [List.countP_eq_length.mpr fun x hx => hle x (List.mem_of_mem_erase hx),
        List.length_erase_of_mem ha, hfront]
    have hone : 0 < (arr.drop p).countP fun x => o.le x a :=
      List.countP_pos_iff.mpr ⟨b, hb, hba⟩
    omega
  obtain ⟨d, hd⟩ := Nat.exists_eq_add_of_le hcount
  rw [hd, ← List.drop_drop] at hlast
  exact List.mem_of_mem_drop hlast

/-- Pages that end at `n`, cut from one arrangement in front of the boundary `k` and from another
behind it, are the two pieces. -/
theorem pages_split {s k n : ℕ} (hk : k ≤ n) (arr arr' : List α) :
    ((List.range n).flatMap fun j => page s j (if j < k then arr else arr')) =
      arr.take (k * s) ++ (arr'.drop (k * s)).take ((n - k) * s) := by
  induction n with
  | zero => simp [Nat.le_zero.mp hk]
  | succ n ih =>
    rw [List.range_succ, List.flatMap_append, List.flatMap_singleton]
    by_cases hlast : k = n + 1
    · subst hlast
      have hsame : ((List.range n).flatMap fun j => page s j (if j < n + 1 then arr else arr')) =
          arr.take (n * s) := by
        clear ih hk
        have hall : ∀ m, m ≤ n → ((List.range m).flatMap fun j =>
            page s j (if j < n + 1 then arr else arr')) = arr.take (m * s) := by
          intro m hm
          induction m with
          | zero => simp
          | succ m ihm =>
            rw [List.range_succ, List.flatMap_append, List.flatMap_singleton,
              ihm (by omega), if_pos (by omega), take_succ_page]
        exact hall n le_rfl
      rw [hsame, if_pos (by omega), ← take_succ_page]
      simp
    · have hk' : k ≤ n := by omega
      rw [ih hk', if_neg (by omega), List.append_assoc]
      congr 1
      have hsub : n + 1 - k = n - k + 1 := by omega
      have hoffset : k * s + (n - k) * s = n * s := by
        rw [← Nat.add_mul, Nat.add_sub_cancel' hk']
      rw [hsub, take_succ_page]
      congr 1
      rw [page, page, List.drop_drop, hoffset]

/-- Pages from whatever arrangements hold each row once, if and only if no row is there twice and
no boundary stands between equal keys. -/
theorem pages_perm_dedup_iff [DecidableEq α] {s n : ℕ} (hn : rows.length ≤ n * s) :
    (∀ arrs : ℕ → List α, (∀ k, Arranged o rows (arrs k)) →
        ((List.range n).flatMap fun k => page s k (arrs k)).Perm rows.dedup) ↔
      rows.Nodup ∧ Untied o rows s := by
  constructor
  · intro h
    have hnodup : rows.Nodup := by
      have harr := arranged_arrange o rows
      have hone := h (fun _ => arrange o rows) fun _ => harr
      have hsplit := pages_split (s := s) (le_refl n) (arrange o rows) (arrange o rows)
      simp only [ite_self, Nat.sub_self, Nat.zero_mul, List.take_zero, List.append_nil] at hsplit
      rw [hsplit, List.take_of_length_le (by rw [harr.length]; exact hn)] at hone
      exact (harr.perm.symm.trans hone).nodup_iff.mpr (List.nodup_dedup rows)
    refine ⟨hnodup, fun k hk hlt => ?_⟩
    by_contra hno
    obtain ⟨a, arr, arr', harr, harr', hfront, hback⟩ := exists_moved hno hlt.le
    have hkn : k ≤ n := by
      by_contra hlast
      have hmul : n * s ≤ k * s := Nat.mul_le_mul_right s (by omega)
      omega
    have hmoved := h (fun j => if j < k then arr else arr') fun j => by
      by_cases hj : j < k
      · rw [if_pos hj]
        exact harr
      · rw [if_neg hj]
        exact harr'
    have hrest : (arr'.drop (k * s)).take ((n - k) * s) = arr'.drop (k * s) := by
      apply List.take_of_length_le
      rw [List.length_drop, harr'.length, Nat.sub_mul]
      omega
    rw [pages_split hkn arr arr', hrest] at hmoved
    have htwice := hmoved.nodup_iff.mpr (List.nodup_dedup rows)
    exact (List.nodup_append.mp htwice).2.2 a hfront a hback rfl
  · rintro ⟨hnodup, huntied⟩ arrs harrs
    rw [hnodup.dedup]
    refine (huntied.pages_perm harrs n).trans ?_
    rw [List.take_of_length_le (by rw [(harrs n).length]; exact hn)]
    exact (harrs n).perm

end CwStation.Pages
