import CwStation.Model.SearchIndex
import CwStation.Verification.Search.Gates
import Mathlib.Data.List.Forall2

/-! # Ranked rows

`bm25` weighs the columns one place too early, and a limit that is applied before the row gate
counts the rows that the gate holds back. -/

namespace CwStation.SearchIndex

variable {view : Ranked}

/-! ## Weights of columns -/

/-- The call that a query issues gives each field's column the field's weight. -/
def WeightsReach (view : Ranked) (columns : List Str) : Prop :=
  ∃ args, issuedWeights view = some args ∧ ∀ i f, view.fields[i]? = some f →
    columns[i + 1]? = some f ∧ view.weight f = .ok (columnWeight args (i + 1))

/-- A table that `ensure_index` vouches for has the columns of the view. -/
theorem columns_of_ensureIndex {accepts : List Str → Bool} {existing : Option (List Str)}
    {columns : List Str} (h : ensureIndex accepts view existing = (true, some columns)) :
    columns = view.columns := by
  rw [ensureIndex] at h
  split_ifs at h with hsame haccepts
  · exact Option.some.inj ((congrArg Prod.snd h).symm.trans hsame)
  · exact (Option.some.inj (congrArg Prod.snd h)).symm
  · simp at h

theorem mapM_ok_iff {α β ε : Type} {f : α → Except ε β} {xs : List α} {ys : List β} :
    xs.mapM f = .ok ys ↔ List.Forall₂ (fun x y => f x = .ok y) xs ys := by
  induction xs generalizing ys with
  | nil => simp [pure, Except.pure, eq_comm]
  | cons x xs ih =>
    rw [List.mapM_cons, List.forall₂_cons_left_iff]
    simp only [← ih]
    cases f x with
    | error e => simp [bind, Except.bind]
    | ok y =>
      cases xs.mapM f with
      | error e => simp [bind, Except.bind]
      | ok rest => simp [bind, Except.bind, pure, Except.pure, eq_comm]

/-- Each weight stands one place before its own, so they are all the last one's, which is 1. -/
theorem all_one_of_shifted {w : Str → Except PyExc Float64} {fields : List Str}
    {args : List Float64} (hargs : List.Forall₂ (fun f x => w f = .ok x) fields args)
    (h : ∀ i f, fields[i]? = some f → w f = .ok (columnWeight args (i + 1))) :
    ∀ f ∈ fields, w f = .ok (Float64.ofRat 1) := by
  induction hargs with
  | nil => simp
  | @cons f x fields args hx hargs ih =>
    have hrest : ∀ f ∈ fields, w f = .ok (Float64.ofRat 1) :=
      ih fun i f hf => h (i + 1) f hf
    refine List.forall_mem_cons.mpr ⟨?_, hrest⟩
    rw [h 0 f rfl]
    cases hargs with
    | nil => rfl
    | @cons g y gs ys hy => exact hy.symm.trans (hrest g (.head _))

theorem forall₂_one {w : Str → Except PyExc Float64} {fields : List Str}
    (h : ∀ f ∈ fields, w f = .ok (Float64.ofRat 1)) :
    List.Forall₂ (fun f x => w f = .ok x) fields
      (List.replicate fields.length (Float64.ofRat 1)) := by
  induction fields with
  | nil => exact .nil
  | cons f fields ih =>
    exact .cons (h f (.head _)) (ih fun g hg => h g (.tail _ hg))

/-- The weights reach their fields exactly when they are all 1. -/
theorem weights_reach_iff (accepts : List Str → Bool) (view : Ranked)
    (existing : Option (List Str)) (columns : List Str)
    (h : ensureIndex accepts view existing = (true, some columns)) :
    WeightsReach view columns ↔ ∀ f ∈ view.fields, view.weight f = .ok (Float64.ofRat 1) := by
  rw [columns_of_ensureIndex h]
  constructor
  · rintro ⟨args, hissued, hreach⟩
    rw [issuedWeights] at hissued
    cases hweights : bm25Weights view with
    | error e => simp [hweights] at hissued
    | ok ws =>
        have hargs : ws = args := by
          rw [hweights] at hissued
          simpa using (Option.ite_none_right_eq_some.mp hissued).2
        exact all_one_of_shifted (mapM_ok_iff.mp (hargs ▸ hweights)) fun i f hf => (hreach i f hf).2
  · intro hone
    have hweights : bm25Weights view = .ok (List.replicate view.fields.length (Float64.ofRat 1)) :=
      mapM_ok_iff.mpr (forall₂_one hone)
    have hliteral : isLiteral (Float64.ofRat 1) = true := by decide +kernel
    refine ⟨List.replicate view.fields.length (Float64.ofRat 1), ?_, fun i f hf => ⟨hf, ?_⟩⟩
    · simp [issuedWeights, hweights, hliteral]
    rw [hone f (List.mem_of_getElem? hf), columnWeight, List.getD_eq_getElem?_getD,
      List.getElem?_replicate]
    split_ifs
    · rfl
    · rfl

/-- The search over the runbook's documents. -/
def documentSearch : Ranked where
  fields := ["title".toList, "content_text".toList, "description".toList]
  weights := [("title".toList, .int 3), ("description".toList, .int 2),
    ("content_text".toList, .int 1)]

/-- A title that was to count three times counts once. -/
theorem title_weighs_one : ∃ columns,
    ensureIndex (fun _ => true) documentSearch none = (true, some columns) ∧
      ¬WeightsReach documentSearch columns := by
  refine ⟨documentSearch.columns, rfl, ?_⟩
  rintro ⟨args, hissued, hreach⟩
  have hargs : issuedWeights documentSearch =
      some [Float64.ofRat 3, Float64.ofRat 1, Float64.ofRat 2] := by
    decide +kernel
  cases hargs.symm.trans hissued
  exact absurd (hreach 0 "title".toList rfl).2 (by decide +kernel)

def plainSearch : Ranked where
  fields := ["title".toList, "text".toList]

theorem plain_weights_reach : WeightsReach plainSearch plainSearch.columns := by
  refine (weights_reach_iff (fun _ => true) plainSearch none _ rfl).mpr ?_
  decide +kernel

end CwStation.SearchIndex

namespace CwStation.Search

variable {ω : Type}

/-! ## Limits before and after a filter -/

/-- A limit before the filter leaves what it leaves after it if it cuts off nothing that passes,
or nothing fails that it leaves. -/
theorem take_filterMap_iff {α β : Type} (g : α → Option β) (n : ℕ) (xs : List α) :
    ((xs.take n).filterMap g).length = ((xs.filterMap g).take n).length ↔
      (∀ x ∈ xs.take n, (g x).isSome) ∨ ∀ x ∈ xs.drop n, g x = none := by
  have hsplit : xs.filterMap g = (xs.take n).filterMap g ++ (xs.drop n).filterMap g := by
    rw [← List.filterMap_append, List.take_append_drop]
  have hle : ((xs.take n).filterMap g).length ≤ (xs.take n).length := List.length_filterMap_le _ _
  have htake : (xs.take n).length = min n xs.length := List.length_take
  have hdrop : (xs.drop n).length = xs.length - n := List.length_drop
  have hrest : ((xs.drop n).filterMap g).length ≤ (xs.drop n).length :=
    List.length_filterMap_le _ _
  rw [← List.filterMap_length_eq_length, ← List.filterMap_eq_nil_iff, hsplit, List.length_take,
    List.length_append, ← List.length_eq_zero_iff]
  omega

theorem take_filterMap_eq {α β : Type} {g : α → Option β} {n : ℕ} {xs : List α}
    (h : ((xs.take n).filterMap g).length = ((xs.filterMap g).take n).length) :
    (xs.take n).filterMap g = (xs.filterMap g).take n := by
  have hle : (xs.take n).filterMap g <+: xs.filterMap g :=
    (List.take_prefix n xs).filterMap g
  exact (List.prefix_of_prefix_length_le hle (List.take_prefix n _) h.le).eq_of_length h

/-! ## Hits, one for each row -/

section Hits

variable {env : Env ω} {view : IndexedView ω} {user : User} {query variant : Str}
  {os : List (ω × ℚ)} {hits : List (SearchHit ω)}

/-- The hit of one row, with its snippet. -/
def rowHit (env : Env ω) (view : IndexedView ω) (query variant : Str) (o : ω × ℚ) :
    Except PyExc (SearchHit ω) := do
  makeHit env view o.1 o.2 (← env.snippet view o.1 query) variant

theorem hitsOf_eq_mapM (os : List (ω × ℚ)) :
    hitsOf env view query variant os = os.mapM (rowHit env view query variant) := by
  induction os with
  | nil => rfl
  | cons o os ih =>
    rw [hitsOf, List.mapM_cons, ← ih, rowHit]
    cases env.snippet view o.1 query <;> rfl

theorem hitsOf_ok_iff : hitsOf env view query variant os = .ok hits ↔
    List.Forall₂ (fun o h => rowHit env view query variant o = .ok h) os hits := by
  rw [hitsOf_eq_mapM, SearchIndex.mapM_ok_iff]

theorem exists_hitsOf_iff : (∃ hits, hitsOf env view query variant os = .ok hits) ↔
    ∀ o ∈ os, ∃ h, rowHit env view query variant o = .ok h := by
  simp only [hitsOf_ok_iff]
  induction os with
  | nil => simp
  | cons o os ih =>
    simp only [List.forall₂_cons_left_iff, List.forall_mem_cons, ← ih]
    constructor
    · rintro ⟨hits, h, rest, hh, hrest, rfl⟩
      exact ⟨⟨h, hh⟩, rest, hrest⟩
    · rintro ⟨⟨h, hh⟩, rest, hrest⟩
      exact ⟨h :: rest, h, rest, hh, hrest, rfl⟩

theorem rowHit_spec {o : ω × ℚ} {h : SearchHit ω} (hh : rowHit env view query variant o = .ok h) :
    h.objectId = env.objects.pk o.1 ∧ h.modelLabel = view.model.label := by
  rw [rowHit] at hh
  cases hsnippet : env.snippet view o.1 query with
  | error e => simp [hsnippet, bind, Except.bind] at hh
  | ok snippet =>
    rw [hsnippet] at hh
    exact ⟨makeHit_objectId hh, makeHit_modelLabel hh⟩

/-- The row gate lets through the hits of the rows that the callback keeps. -/
theorem rowGate_hits {visibility : List ω → User → Except PyExc (List ω)} {keep : ω → Bool}
    (hvisibility : view.visibility = some visibility)
    (hkeep : ∀ rows, visibility rows user = .ok (rows.filter keep))
    (hpk : (view.model.rows.map env.objects.pk).Nodup) (hstaff : user.isStaff = false)
    (hrows : ∀ o ∈ os, o.1 ∈ view.model.rows)
    (hos : List.Forall₂ (fun o h => rowHit env view query variant o = .ok h) os hits) :
    List.Forall₂ (fun o h => rowHit env view query variant o = .ok h)
      (os.filter fun o => keep o.1)
      (rowGate env view (.ok view.model.rows) (some user) hits) := by
  have hgate : rowGate env view (.ok view.model.rows) (some user) hits =
      hits.filter fun h => decide (h.objectId ∈
        ((hitRows env view.model.rows hits).filter keep).map env.objects.pk) := by
    simp only [rowGate, hvisibility, hstaff, and_true, visibleHits, hkeep]
    split_ifs with hnil
    · rfl
    · rw [not_not.mp hnil, List.filter_nil]
  have hids : ∀ o h, (o, h) ∈ os.zip hits → (keep o.1 = true ↔ h.objectId ∈
      ((hitRows env view.model.rows hits).filter keep).map env.objects.pk) := by
    intro o h hoh
    have ho : o.1 ∈ view.model.rows := hrows o (List.of_mem_zip hoh).1
    have hid : h.objectId = env.objects.pk o.1 := (rowHit_spec (List.forall₂_zip hos hoh)).1
    rw [hid]
    constructor
    · intro hkept
      refine List.mem_map_of_mem (List.mem_filter.mpr ⟨List.mem_filter.mpr ⟨ho, ?_⟩, hkept⟩)
      exact decide_eq_true (hid ▸ List.mem_map_of_mem (List.of_mem_zip hoh).2)
    · intro hmem
      obtain ⟨obj, hobj, hsame⟩ := List.mem_map.mp hmem
      obtain ⟨hobj, hkept⟩ := List.mem_filter.mp hobj
      rw [← List.inj_on_of_nodup_map hpk (List.mem_filter.mp hobj).1 ho hsame]
      exact hkept
  rw [hgate]
  generalize ((hitRows env view.model.rows hits).filter keep).map env.objects.pk = ids at hids
  clear hgate
  induction hos with
  | nil => exact .nil
  | @cons o h os hits hh hos ih =>
    have hrest := ih (fun o' ho' => hrows o' (.tail _ ho')) fun o' h' hoh => hids o' h' (.tail _ hoh)
    have hhead : decide (h.objectId ∈ ids) = keep o.1 := by
      rw [Bool.eq_iff_iff, decide_eq_true_eq]
      exact (hids o h (.head _)).symm
    rw [List.filter_cons, List.filter_cons, hhead]
    split
    · exact .cons hh hrest
    · exact hrest

end Hits

/-! ## The hits of one view -/

section Crowding

variable {env : Env ω} {view : IndexedView ω} {user : User} {query : Str}
  {ranking : List (ℕ × ℚ)} {keep : ω → Bool} {n : ℕ}

/-- A query is answered from the entries of the index that match it, best first, as many as the
limit allows. -/
def Ranks (env : Env ω) (view : IndexedView ω) (query : Str) (ranking : List (ℕ × ℚ)) : Prop :=
  ∀ n : ℕ, env.found view query n =
    .ok (rehydrate env.objects view.model.rows (ranking.take n))

/-- Whether the user may see a row: the user may search the view and its callback keeps the
row. -/
def isVisible (view : IndexedView ω) (user : User) (keep : ω → Bool) (obj : ω) : Bool :=
  userCanSee view (some user) && keep obj

/-- From the view, a search returns hits of the best `n` of the rows that match and are visible to
the user. -/
def ShowsBest (env : Env ω) (registry : Registry ω) (view : IndexedView ω) (user : User)
    (keep : ω → Bool) (query : Str) (ranking : List (ℕ × ℚ)) (n : ℕ) : Prop :=
  ∃ hits, hitsOf env view query defaultVariant
      (((rehydrate env.objects view.model.rows ranking).filter fun o =>
        isVisible view user keep o.1).take n) = .ok hits ∧
    ((searchAll env registry query n (some user)).filter fun h =>
      h.modelLabel = view.model.label).Perm hits

/-- A visible row has the key of an entry. -/
def EntryVisible (env : Env ω) (view : IndexedView ω) (user : User) (keep : ω → Bool)
    (entry : ℕ × ℚ) : Prop :=
  ∃ obj ∈ view.model.rows, env.objects.pk obj = entry.1 ∧ isVisible view user keep obj = true

/-- Nothing visible matches; or the rows of the first `n` matches can all be shown, and either
all of these matches are visible or none of those behind them is. -/
def NotCrowded (env : Env ω) (view : IndexedView ω) (user : User) (keep : ω → Bool) (query : Str)
    (ranking : List (ℕ × ℚ)) (n : ℕ) : Prop :=
  (∀ entry ∈ ranking, ¬EntryVisible env view user keep entry) ∨
    (∀ o ∈ rehydrate env.objects view.model.rows (ranking.take n),
      ∃ h, rowHit env view query defaultVariant o = .ok h) ∧
    ((∀ entry ∈ ranking.take n, EntryVisible env view user keep entry) ∨
      ∀ entry ∈ ranking.drop n, ¬EntryVisible env view user keep entry)

/-- The visible row of an entry, with its rank. -/
def visibleRow (env : Env ω) (view : IndexedView ω) (user : User) (keep : ω → Bool)
    (entry : ℕ × ℚ) : Option (ω × ℚ) :=
  ((view.model.rows.find? fun obj => env.objects.pk obj = entry.1).map (·, entry.2)).filter
    fun o => isVisible view user keep o.1

theorem filter_rehydrate (entries : List (ℕ × ℚ)) :
    (rehydrate env.objects view.model.rows entries).filter
      (fun o => isVisible view user keep o.1) =
        entries.filterMap (visibleRow env view user keep) :=
  List.filter_filterMap

theorem visibleRow_isSome (hpk : (view.model.rows.map env.objects.pk).Nodup) (entry : ℕ × ℚ) :
    (visibleRow env view user keep entry).isSome = true ↔
      EntryVisible env view user keep entry := by
  rw [visibleRow]
  cases hfind : view.model.rows.find? fun obj => env.objects.pk obj = entry.1 with
  | none =>
    rw [List.find?_eq_none] at hfind
    simp only [Option.map_none, Option.filter_none, Option.isSome_none, Bool.false_eq_true,
      false_iff]
    rintro ⟨obj, hobj, hid, -⟩
    exact hfind obj hobj (decide_eq_true hid)
  | some row =>
    have hrow : row ∈ view.model.rows := List.mem_of_find?_eq_some hfind
    have hid : env.objects.pk row = entry.1 := by simpa using List.find?_some hfind
    rw [Option.map_some, Option.filter_some]
    constructor
    · intro h
      refine ⟨row, hrow, hid, ?_⟩
      by_contra hhidden
      simp [hhidden] at h
    · rintro ⟨obj, hobj, hobjId, hvisible⟩
      rw [List.inj_on_of_nodup_map hpk hobj hrow (hobjId.trans hid.symm)] at hvisible
      simp [hvisible]

theorem mem_rows_of_rehydrate {o : ω × ℚ} {entries : List (ℕ × ℚ)}
    (h : o ∈ rehydrate env.objects view.model.rows entries) : o.1 ∈ view.model.rows := by
  obtain ⟨entry, -, ho⟩ := List.mem_filterMap.mp h
  obtain ⟨row, hfind, rfl⟩ := Option.map_eq_some_iff.mp ho
  exact List.mem_of_find?_eq_some hfind

/-- What a search returns from the view: hits of the visible ones among the first `n` matches, if
none of these raises. -/
theorem searchView_hits {visibility : List ω → User → Except PyExc (List ω)}
    (hvisibility : view.visibility = some visibility)
    (hkeep : ∀ rows, visibility rows user = .ok (rows.filter keep))
    (hpk : (view.model.rows.map env.objects.pk).Nodup) (hstaff : user.isStaff = false)
    (hranks : Ranks env view query ranking) (n : ℕ) :
    (∀ o ∈ rehydrate env.objects view.model.rows (ranking.take n),
        ∃ h, rowHit env view query defaultVariant o = .ok h) ∧
      List.Forall₂ (fun o h => rowHit env view query defaultVariant o = .ok h)
        ((ranking.take n).filterMap (visibleRow env view user keep))
        (searchView env query n (some user) view) ∨
    (¬∀ o ∈ rehydrate env.objects view.model.rows (ranking.take n),
        ∃ h, rowHit env view query defaultVariant o = .ok h) ∧
      searchView env query n (some user) view = [] := by
  rw [← filter_rehydrate, ← exists_hitsOf_iff]
  have hquery : backendQuery env view query n defaultVariant =
      hitsOf env view query defaultVariant
        (rehydrate env.objects view.model.rows (ranking.take n)) := by
    rw [backendQuery, hranks n]
    rfl
  rw [searchView, hquery]
  cases hhits : hitsOf env view query defaultVariant
      (rehydrate env.objects view.model.rows (ranking.take n)) with
  | error e => exact .inr ⟨by simp, by simp⟩
  | ok hits =>
    refine .inl ⟨⟨hits, rfl⟩, ?_⟩
    by_cases hsee : userCanSee view (some user) = true
    · simp only [isVisible, hsee, Bool.true_and, if_true]
      exact rowGate_hits hvisibility hkeep hpk hstaff (fun o ho => mem_rows_of_rehydrate ho)
        (hitsOf_ok_iff.mp hhits)
    · simp [isVisible, hsee]

theorem searchView_label {h : SearchHit ω} {limit : ℤ}
    (hstaff : user.isStaff = false) (hh : h ∈ searchView env query limit (some user) view) :
    h.modelLabel = view.model.label := by
  obtain ⟨-, -, obj, -, ⟨rank, snippet, hhit⟩, -⟩ := searchView_permitted env hstaff hh
  exact makeHit_modelLabel hhit

/-- The hits of a view among those of all. -/
theorem filter_flatMap_searchView {views : List (IndexedView ω)} {limit : ℤ}
    (hlabels : (views.map (·.model.label)).Nodup) (hview : view ∈ views)
    (hstaff : user.isStaff = false) :
    (views.flatMap (searchView env query limit (some user))).filter
      (fun h => h.modelLabel = view.model.label) = searchView env query limit (some user) view := by
  induction views with
  | nil => cases hview
  | cons v views ih =>
    rw [List.map_cons, List.nodup_cons] at hlabels
    rw [List.flatMap_cons, List.filter_append]
    rcases List.mem_cons.mp hview with rfl | hview
    · have hrest : (views.flatMap (searchView env query limit (some user))).filter
          (fun h => h.modelLabel = view.model.label) = [] := by
        rw [List.filter_eq_nil_iff]
        intro h hh hsame
        obtain ⟨v', hv', hh⟩ := List.mem_flatMap.mp hh
        refine hlabels.1 (List.mem_map.mpr ⟨v', hv', ?_⟩)
        exact (searchView_label hstaff hh).symm.trans (of_decide_eq_true hsame)
      rw [hrest, List.append_nil, List.filter_eq_self]
      exact fun h hh => decide_eq_true (searchView_label hstaff hh)
    · have hother : (searchView env query limit (some user) v).filter
          (fun h => h.modelLabel = view.model.label) = [] := by
        rw [List.filter_eq_nil_iff]
        intro h hh hsame
        refine hlabels.1 (List.mem_map.mpr ⟨view, hview, ?_⟩)
        exact (of_decide_eq_true hsame).symm.trans (searchView_label hstaff hh)
      rw [hother, List.nil_append]
      exact ih hlabels.2 hview

/-- Search returns the best visible rows of a view exactly where hidden ones do not crowd them
out. -/
theorem shows_best_iff (env : Env ω) (registry : Registry ω) (view : IndexedView ω) (user : User)
    (visibility : List ω → User → Except PyExc (List ω)) (keep : ω → Bool) (query : Str)
    (ranking : List (ℕ × ℚ)) (n : ℕ) (hview : view ∈ registry.views)
    (hstaff : user.isStaff = false) (hvisibility : view.visibility = some visibility)
    (hkeep : ∀ rows, visibility rows user = .ok (rows.filter keep))
    (hpk : (view.model.rows.map env.objects.pk).Nodup) (hranks : Ranks env view query ranking)
    (hhelp : ∀ h ∈ helpHits env query n, h.modelLabel ≠ view.model.label) :
    ShowsBest env registry view user keep query ranking n ↔
      NotCrowded env view user keep query ranking n := by
  have hperm : ((searchAll env registry query n (some user)).filter fun h =>
      h.modelLabel = view.model.label).Perm (searchView env query n (some user) view) := by
    refine ((List.perm_insertionSort _ _).filter _).trans ?_
    have hnone : (helpHits env query n).filter (fun h => h.modelLabel = view.model.label) = [] :=
      List.filter_eq_nil_iff.mpr fun h hh hsame => hhelp h hh (of_decide_eq_true hsame)
    rw [List.filter_append, hnone, List.append_nil,
      filter_flatMap_searchView registry.labels hview hstaff]
  have hsome := @visibleRow_isSome ω env view user keep hpk
  have hnone : ∀ entry, visibleRow env view user keep entry = none ↔
      ¬EntryVisible env view user keep entry := by
    intro entry
    rw [← hsome, Option.isSome_iff_ne_none, not_not]
  have hlength := take_filterMap_iff (visibleRow env view user keep) n ranking
  simp only [hsome, hnone] at hlength
  rw [ShowsBest, NotCrowded, filter_rehydrate, ← hlength]
  simp only [hitsOf_ok_iff]
  rcases searchView_hits hvisibility hkeep hpk hstaff hranks n with ⟨hall, hhits⟩ | ⟨hraises, hnil⟩
  · constructor
    · rintro ⟨hits, hbest, hsame⟩
      refine .inr ⟨hall, ?_⟩
      rw [hhits.length_eq, hbest.length_eq, ← hsame.length_eq, hperm.length_eq]
    · intro hclear
      have hequal : ((ranking.take n).filterMap (visibleRow env view user keep)).length =
          ((ranking.filterMap (visibleRow env view user keep)).take n).length := by
        refine hclear.elim (fun hnobody => hlength.mpr (.inr fun entry hentry => ?_)) And.right
        exact hnobody entry (List.mem_of_mem_drop hentry)
      exact ⟨_, take_filterMap_eq hequal ▸ hhits, hperm⟩
  · rw [hnil] at hperm
    constructor
    · rintro ⟨hits, hbest, hsame⟩
      left
      rw [← (hperm.symm.trans hsame).nil_eq, List.forall₂_nil_right_iff, List.take_eq_nil_iff]
        at hbest
      rcases hbest with rfl | hbest
      · exact absurd (by simp [rehydrate]) hraises
      · exact fun entry hentry => (hnone entry).mp (List.filterMap_eq_nil_iff.mp hbest entry hentry)
    · rintro (hnobody | ⟨hall, -⟩)
      · have hempty : ranking.filterMap (visibleRow env view user keep) = [] :=
          List.filterMap_eq_nil_iff.mpr fun entry hentry => (hnone entry).mpr (hnobody entry hentry)
        exact ⟨[], by simp [hempty], hperm⟩
      · exact absurd hall hraises

end Crowding

/-! ### Two users' notes, ranked -/

/-- The notes with an index that ranks them. -/
def rankedEnv (ranking : List (ℕ × ℚ)) : Env Note where
  objects := noteObjects
  unicode := Unicode.ascii
  reverse _ _ := none
  found view _ limit := .ok (rehydrate noteObjects view.model.rows (ranking.take limit.toNat))
  found_rows view _ limit os h o ho := by
    cases h
    obtain ⟨entry, -, hentry⟩ := List.mem_filterMap.mp ho
    obtain ⟨row, hfind, rfl⟩ := Option.map_eq_some_iff.mp hentry
    exact List.mem_of_find?_eq_some hfind
  snippet _ _ _ := .ok []
  helpArticles _ _ := .ok []
  helpCount := .ok 0

theorem ranks_rankedEnv (ranking : List (ℕ × ℚ)) (view : IndexedView Note) (query : Str) :
    Ranks (rankedEnv ranking) view query ranking := by
  intro n
  rfl

/-- A note that the user may not see takes the place of the user's own. -/
theorem own_note_crowded_out :
    Ranks (rankedEnv [(2, 2), (1, 1)]) (noteView notes) "talks".toList [(2, 2), (1, 1)] ∧
      ¬ShowsBest (rankedEnv [(2, 2), (1, 1)]) (noteRegistry notes) (noteView notes) noteOwner
        (fun note => decide (some note.owner = noteOwner.pk)) "talks".toList [(2, 2), (1, 1)] 1 := by
  refine ⟨ranks_rankedEnv _ _ _, ?_⟩
  rintro ⟨hits, hbest, hsame⟩
  have hnone : (searchAll (rankedEnv [(2, 2), (1, 1)]) (noteRegistry notes) "talks".toList 1
      (some noteOwner)).filter (fun h => h.modelLabel = (noteView notes).model.label) = [] := by
    decide +kernel
  rw [Nat.cast_one, hnone] at hsame
  rw [← hsame.nil_eq] at hbest
  revert hbest
  decide +kernel

/-- Where the user's own note ranks first it is shown. -/
theorem own_note_shown : ShowsBest (rankedEnv [(1, 2), (2, 1)]) (noteRegistry notes)
    (noteView notes) noteOwner (fun note => decide (some note.owner = noteOwner.pk)) "mine".toList
    [(1, 2), (2, 1)] 1 := by
  refine (shows_best_iff (rankedEnv [(1, 2), (2, 1)]) (noteRegistry notes) (noteView notes)
    noteOwner ownNotes (fun note => decide (some note.owner = noteOwner.pk)) "mine".toList
    [(1, 2), (2, 1)] 1 (.head _) rfl rfl (fun _ => rfl) ?_ (ranks_rankedEnv _ _ _) ?_).mpr ?_
  · decide +kernel
  · exact fun h hh => by cases hh
  · refine .inr ⟨?_, .inl ?_⟩
    · intro o ho
      rw [List.mem_singleton.mp ho]
      exact ⟨_, rfl⟩
    · intro entry hentry
      rw [List.mem_singleton.mp hentry]
      exact ⟨⟨1, 1, "mine".toList⟩, .head _, rfl, rfl⟩

end CwStation.Search
