import CwStation.Model.CrudList

/-! # When an ordering breaks a list

The name that is checked has lost all its minus signs, the term that is used has them still, and
`order_by` takes one. -/

namespace CwStation.Crud

variable {M : Type} {s : Schema M} {path term part : Str}

/-- A term that `order_by` accepts: a path it can sort by, behind a minus or not. -/
def IsTerm (s : Schema M) (term : Str) : Prop :=
  ∃ path, canOrderBy s path = true ∧ (term = path ∨ term = '-' :: path)

/-! ## Paths -/

theorem head_splitLookup (h : path.head? = some '-') :
    ∃ part parts, splitLookup path = part :: parts ∧ part.head? = some '-' := by
  cases path with
  | nil => cases h
  | cons c path =>
    obtain rfl : c = '-' := by simpa using h
    rw [splitLookup]
    · cases splitLookup path with
      | nil => exact ⟨_, _, rfl, rfl⟩
      | cons part parts => exact ⟨_, _, rfl, rfl⟩
    · simp

/-- No name begins with a minus, and so no path does. -/
theorem head_of_canOrderBy (h : canOrderBy s path = true) : path.head? ≠ some '-' := by
  intro hminus
  rw [canOrderBy, Bool.or_eq_true, decide_eq_true_eq] at h
  rcases h with hname | hfield
  · exact s.annotations_plain path hname hminus
  · obtain ⟨part, parts, hsplit, hpart⟩ := head_splitLookup hminus
    have hnone : s.fieldOf s.model part = none := by
      have hpk : part ≠ "pk".toList := by
        rintro rfl
        cases hpart
      rw [Schema.fieldOf, if_neg hpk, s.getField_plain s.model part hpart]
    rw [hsplit] at hfield
    cases parts with
    | nil => simp [Schema.lastField, hnone] at hfield
    | cons next rest => simp [Schema.lastField, hnone] at hfield

/-- The path ends in a generic foreign key. -/
def EndsGeneric (s : Schema M) (path : Str) : Prop :=
  path ∉ s.annotations ∧ ∃ field, s.lastField s.model (splitLookup path) = some field ∧
    field.isRelation = true ∧ field.relatedModel = none

/-- What is orderable to the view can be ordered by, but for generic foreign keys. -/
theorem canOrderBy_iff (h : fieldIsOrderable s path = true) :
    canOrderBy s path = true ↔ ¬EndsGeneric s path := by
  rw [fieldIsOrderable, Bool.or_eq_true, decide_eq_true_eq] at h
  rw [canOrderBy, EndsGeneric]
  by_cases hname : path ∈ s.annotations
  · simp [hname]
  · obtain ⟨field, hfield⟩ := Option.isSome_iff_exists.mp (h.resolve_left hname)
    simp only [hname, hfield, decide_false, Bool.false_or, Option.any_some, Option.some.injEq,
      exists_eq_left', not_false_eq_true, true_and]
    cases field.isRelation <;> cases field.relatedModel <;> simp

/-! ## Terms -/

theorem orderField_cons (h : path.head? ≠ some '-') : path.dropWhile (· = '-') = path := by
  cases path with
  | nil => rfl
  | cons c path =>
    have hc : ¬c = '-' := by simpa using h
    rw [List.dropWhile_cons_of_neg (by simpa using hc)]

/-- A term names the path that was checked, behind no more than one minus. -/
theorem isTerm_strip_iff : IsTerm s (strip part) ↔
    (strip part = orderField part ∨ strip part = '-' :: orderField part) ∧
      canOrderBy s (orderField part) = true := by
  constructor
  · rintro ⟨path, hpath, hterm⟩
    have hself : orderField part = path := by
      rcases hterm with hterm | hterm
      · rw [orderField, hterm, orderField_cons (head_of_canOrderBy hpath)]
      · rw [orderField, hterm, List.dropWhile_cons_of_pos (by rfl),
          orderField_cons (head_of_canOrderBy hpath)]
    rw [hself]
    exact ⟨hterm, hpath⟩
  · exact fun h => ⟨orderField part, h.2, h.1⟩

theorem isTerm_iff : IsTerm s term ↔ canOrderBy s (removeMinus term) = true := by
  constructor
  · rintro ⟨path, hpath, rfl | rfl⟩
    · rwa [removeMinus, if_neg (head_of_canOrderBy hpath)]
    · exact hpath
  · intro h
    refine ⟨removeMinus term, h, ?_⟩
    rw [removeMinus]
    by_cases hminus : term.head? = some '-'
    · rw [if_pos hminus]
      cases term with
      | nil => cases hminus
      | cons c term =>
        obtain rfl : c = '-' := by simpa using hminus
        exact .inr rfl
    · rw [if_neg hminus]
      exact .inl rfl

/-- The terms of an ordering that name an allowed path have no more than one minus, and no path of
them ends in a generic foreign key. -/
def Sortable (s : Schema M) (ordering : Str) (allowed : List Str) : Prop :=
  ∀ part ∈ ordering.splitOn ',', orderField part ∈ allowed →
    fieldIsOrderable s (orderField part) = true →
      (strip part = orderField part ∨ strip part = '-' :: orderField part) ∧
        ¬EndsGeneric s (orderField part)

theorem terms_iff (ordering : Str) (allowed : List Str) :
    (∀ term ∈ orderTerms s ordering allowed, IsTerm s term) ↔ Sortable s ordering allowed := by
  simp only [orderTerms, List.forall_mem_map, List.mem_filter, decide_eq_true_eq, and_imp]
  exact forall₂_congr fun part _ => forall₂_congr fun _ hfield => by
    rw [isTerm_strip_iff, canOrderBy_iff hfield]

theorem applyTerms_ok_iff (ordering : Str) (allowed : List Str) :
    (∃ sorting, applyTerms s ordering allowed = .ok sorting) ↔ Sortable s ordering allowed := by
  rw [← terms_iff, applyTerms]
  cases hfind : (orderTerms s ordering allowed).find? fun term => !canOrderBy s (removeMinus term) with
  | none =>
    rw [List.find?_eq_none] at hfind
    refine iff_of_true ⟨_, rfl⟩ fun term hterm => isTerm_iff.mpr ?_
    simpa using hfind term hterm
  | some term =>
    have hbad := List.find?_some hfind
    refine iff_of_false (by simp) fun hall => ?_
    have hterm := isTerm_iff.mp (hall term (List.mem_of_find?_eq_some hfind))
    simp [hterm] at hbad

/-! ## Lists -/

/-- The ordering that a list comes to sort by, past its checks. -/
def reached (view : SortedView) (ordering : Str) : Surface → Option Str
  | .rest =>
      if strip ordering = [] ∨ invalidNames (strip ordering) (view.allowed .rest) ≠ [] then none
      else some (strip ordering)
  | .dataset => if ordering = [] then none else some ordering
  | .html | .mcp => if strip ordering = [] then none else some (strip ordering)

theorem sortList_ok_iff (view : SortedView) (surface : Surface) (ordering : Str) :
    (∃ sorting, sortList s view surface ordering = .ok sorting) ↔
      ∀ text, reached view ordering surface = some text →
        Sortable s text (view.allowed surface) := by
  cases surface with
  | dataset =>
    by_cases hnone : ordering = []
    · simp [sortList, reached, hnone]
    · simp [sortList, reached, hnone, applyTerms_ok_iff]
  | html =>
    by_cases hnone : strip ordering = []
    · simp [sortList, reached, hnone]
    · simp [sortList, reached, hnone, applyTerms_ok_iff]
  | mcp =>
    by_cases hnone : strip ordering = []
    · simp [sortList, reached, hnone]
    · simp [sortList, reached, hnone, applyTerms_ok_iff]
  | rest =>
    by_cases hnone : strip ordering = []
    · simp [sortList, reached, hnone]
    · by_cases hinvalid : invalidNames (strip ordering) (view.allowed .rest) = []
      · simp [sortList, reached, hnone, hinvalid, applyTerms_ok_iff]
      · simp [sortList, reached, hnone, hinvalid]

/-- Every term is one that `order_by` accepts, and a list is sorted without an exception, just if
no term with an allowed name that passes has two minus signs or ends in a generic foreign key. -/
theorem sorted_iff (s : Schema M) (view : SortedView) (surface : Surface) (ordering : Str)
    (allowed : List Str) :
    ((∀ term ∈ orderTerms s ordering allowed, IsTerm s term) ↔ Sortable s ordering allowed) ∧
      ((∃ sorting, sortList s view surface ordering = .ok sorting) ↔
        ∀ text, reached view ordering surface = some text →
          Sortable s text (view.allowed surface)) :=
  ⟨terms_iff ordering allowed, sortList_ok_iff view surface ordering⟩

/-- A model with the one field `name`. -/
def nameSchema : Schema Unit where
  model := ()
  annotations := []
  getField _ name := if name = "name".toList then some ⟨false, none⟩ else none
  pk _ := ⟨false, none⟩
  getField_plain _ name h := by
    rw [if_neg]
    rintro rfl
    cases h
  annotations_plain := by simp

def nameView : SortedView where
  listFields := ["name".toList]
  apiExtraFields := []
  orderingFields := []
  modelFields := ["name".toList]
  columnNames := ["name".toList]
  isOrdered := true

/-- `?ordering=--name` passes every check, and `order_by` raises. -/
theorem two_minuses_raise :
    orderTerms nameSchema "--name".toList ["name".toList] = ["--name".toList] ∧
      ¬IsTerm nameSchema "--name".toList ∧
      ∀ surface, sortList nameSchema nameView surface "--name".toList = .error ⟨"-name".toList⟩ := by
  refine ⟨by decide, ?_, ?_⟩
  · rw [isTerm_iff]
    decide
  · intro surface
    cases surface <;> decide

/-! ## The REST list -/

variable {ρ : Type} {cfg : CrudConfig ρ}

end CwStation.Crud
