import CwStation.Library.Table

/-! # Dictionaries in the order of insertion

A key that is set again keeps its place. -/

namespace CwStation

/-- A dictionary: no key occurs twice. -/
structure Dict (κ α : Type) where
  items : List (κ × α)
  unique : Table.Unique Prod.fst items

namespace Dict

variable {κ α : Type} [DecidableEq κ] {d other : Dict κ α} {k j : κ} {v : α} {l l' : List (κ × α)}

def keys (d : Dict κ α) : List κ := d.items.map Prod.fst

def get (d : Dict κ α) (k : κ) : Option α := (Table.get Prod.fst d.items k).map Prod.snd

def empty : Dict κ α := ⟨[], List.nodup_nil⟩

/-- `d[k] = v`. -/
def set (d : Dict κ α) (k : κ) (v : α) : Dict κ α :=
  if h : Table.get Prod.fst d.items k = none then
    ⟨d.items ++ [(k, v)], d.unique.append h⟩
  else ⟨Table.alter Prod.fst k (fun x => (x.1, v)) d.items, d.unique.alter fun _ => rfl⟩

/-- `d.update(l)`. -/
def update (d : Dict κ α) (l : List (κ × α)) : Dict κ α := l.foldl (fun d x => d.set x.1 x.2) d

/-- The items of a list whose keys are not there yet. -/
def missing (d : Dict κ α) (l : List (κ × α)) : List (κ × α) := l.filter fun x => x.1 ∉ d.keys

/-- The items of a list are added whose keys are not there yet. -/
def fill (d : Dict κ α) (l : List (κ × α)) : Dict κ α :=
  l.foldl (fun d x => if x.1 ∈ d.keys then d else d.set x.1 x.2) d

theorem get_eq_none_iff : d.get k = none ↔ k ∉ d.keys := by
  rw [get, Option.map_eq_none_iff, Table.get_eq_none_iff, keys, List.mem_map]
  exact ⟨fun h ⟨x, hx, hk⟩ => h x hx hk, fun h x hx hk => h ⟨x, hx, hk⟩⟩

theorem get_set : (d.set k v).get j = if j = k then some v else d.get j := by
  unfold set
  split
  · rename_i hnone
    rw [get, Table.get_append]
    by_cases hj : j = k
    · rw [hj, hnone]
      simp
    · rw [if_neg hj, if_neg fun h => hj h.symm, Option.or_none]
      rfl
  · rename_i hsome
    have halter : Table.get Prod.fst (Table.alter Prod.fst k (fun x => (x.1, v)) d.items) j =
        if j = k then (Table.get Prod.fst d.items k).map fun x => (x.1, v)
        else Table.get Prod.fst d.items j := Table.get_alter fun _ => rfl
    rw [get, halter]
    by_cases hj : j = k
    · obtain ⟨x, hx⟩ := Option.ne_none_iff_exists'.mp hsome
      simp [hj, hx]
    · rw [if_neg hj, if_neg hj]
      rfl

/-- The last value that a list of items has for a key. -/
def last (k : κ) : List (κ × α) → Option α
  | [] => none
  | x :: l => (last k l).or (if x.1 = k then some x.2 else none)

theorem last_append : last k (l ++ l') = (last k l').or (last k l) := by
  induction l with
  | nil => simp [last]
  | cons x l ih => rw [List.cons_append, last, last, ih, Option.or_assoc]

theorem last_eq_none (h : k ∉ l.map Prod.fst) : last k l = none := by
  induction l with
  | nil => rfl
  | cons x l ih =>
    rw [List.map_cons, List.mem_cons, not_or] at h
    rw [last, ih h.2, if_neg (Ne.symm h.1), Option.or_none]

theorem last_eq_none_iff : last k l = none ↔ k ∉ l.map Prod.fst := by
  induction l with
  | nil => simp [last]
  | cons x l ih =>
    rw [last, Option.or_eq_none_iff, ih, List.map_cons, List.mem_cons, not_or, and_comm,
      ite_eq_right_iff]
    simp [eq_comm]

/-- A list of items in front of which one stands: it counts where no later one has its key. -/
theorem forall_last_cons {P : κ → α → Prop} : (∀ j w, last j ((k, v) :: l) = some w → P j w) ↔
    (k ∈ l.map Prod.fst ∨ P k v) ∧ ∀ j w, last j l = some w → P j w := by
  constructor
  · intro h
    refine ⟨or_iff_not_imp_left.mpr fun hk => h k v ?_, fun j w hlast => h j w ?_⟩
    · rw [last, last_eq_none_iff.mpr hk, Option.none_or, if_pos rfl]
    · rw [last, hlast, Option.some_or]
  · rintro ⟨hhead, hrest⟩ j w hlast
    rw [last] at hlast
    cases hl : last j l with
    | some w' =>
      rw [hl, Option.some_or] at hlast
      exact hrest j w (hl.trans hlast)
    | none =>
      rw [hl, Option.none_or] at hlast
      obtain ⟨rfl, rfl⟩ : k = j ∧ v = w := by simpa using hlast
      exact hhead.resolve_left (last_eq_none_iff.mp hl)

/-- Some keys are left out, and the values of the others are mapped. -/
theorem last_map_filter {β : Type} (f : κ → α → β) (p : κ → Prop) [DecidablePred p] :
    last k ((l.filter fun x => p x.1).map fun x => (x.1, f x.1 x.2)) =
      if p k then (last k l).map (f k) else none := by
  induction l with
  | nil => simp [last]
  | cons x l ih =>
    by_cases hp : p x.1
    · rw [List.filter_cons_of_pos (by simpa using hp), List.map_cons, last, last, ih]
      by_cases hk : x.1 = k
      · rw [← hk, if_pos hp, if_pos hp, if_pos rfl, if_pos rfl, Option.map_or]
        rfl
      · rw [if_neg hk, if_neg hk, Option.or_none, Option.or_none]
    · rw [List.filter_cons_of_neg (by simpa using hp), ih, last]
      by_cases hk : x.1 = k
      · rw [← hk, if_neg hp, if_neg hp]
      · rw [if_neg hk, Option.or_none]

/-- What is written under the key of one of some records, each of which writes under its own. -/
theorem last_filterMap {ρ : Type} {key : ρ → κ} {rows : List ρ} {r : ρ} (h : Table.Unique key rows)
    (hr : r ∈ rows) (f : ρ → Option α) :
    last (key r) (rows.filterMap fun r => (f r).map fun v => (key r, v)) = f r := by
  induction rows with
  | nil => cases hr
  | cons x rows ih =>
    rw [Table.Unique, List.map_cons, List.nodup_cons] at h
    have hx : last (key x) (rows.filterMap fun r => (f r).map fun v => (key r, v)) = none := by
      apply last_eq_none
      intro hmem
      obtain ⟨y, hy, hkey⟩ := List.mem_map.mp hmem
      obtain ⟨r', hr', hwrite⟩ := List.mem_filterMap.mp hy
      obtain ⟨v, -, rfl⟩ := Option.map_eq_some_iff.mp hwrite
      exact h.1 (hkey ▸ List.mem_map_of_mem hr')
    rcases List.mem_cons.mp hr with rfl | hr
    · cases hf : f r with
      | none => rw [List.filterMap_cons_none (by rw [hf]; rfl), hx]
      | some v =>
        rw [List.filterMap_cons_some (by rw [hf]; rfl), last, hx, if_pos rfl, Option.none_or]
    · have hne : key x ≠ key r := fun hkey => h.1 (hkey ▸ List.mem_map_of_mem hr)
      cases hf : f x with
      | none => rw [List.filterMap_cons_none (by rw [hf]; rfl), ih h.2 hr]
      | some v =>
        rw [List.filterMap_cons_some (by rw [hf]; rfl), last, ih h.2 hr, if_neg hne,
          Option.or_none]

theorem last_eq_get (h : Table.Unique Prod.fst l) :
    last k l = (Table.get Prod.fst l k).map Prod.snd := by
  induction l with
  | nil => rfl
  | cons x l ih =>
    rw [Table.Unique, List.map_cons, List.nodup_cons] at h
    rw [last, ih h.2, Table.get, Table.get, List.find?_cons]
    by_cases hx : x.1 = k
    · have hrest : Table.get Prod.fst l k = none := Table.get_eq_none_iff.mpr fun y hy hk =>
        h.1 (hx ▸ hk ▸ List.mem_map_of_mem hy)
      rw [Table.get] at hrest
      simp [hx, hrest]
    · simp [hx]

/-- The last value that is set stays. -/
theorem get_update : (d.update l).get k = (last k l).or (d.get k) := by
  induction l generalizing d with
  | nil => rfl
  | cons x l ih =>
    rw [update, List.foldl_cons, ← update, ih, get_set, last, Option.or_assoc]
    by_cases hk : k = x.1
    · rw [if_pos hk, if_pos hk.symm, Option.some_or]
    · rw [if_neg hk, if_neg fun h => hk h.symm, Option.none_or]

theorem get_empty : (empty : Dict κ α).get k = none := rfl

theorem mem_items_iff : (k, v) ∈ d.items ↔ d.get k = some v := by
  rw [get, Option.map_eq_some_iff]
  constructor
  · exact fun h => ⟨(k, v), Table.get_of_mem d.unique h, rfl⟩
  · rintro ⟨⟨j, w⟩, hget, rfl⟩
    rw [← Table.key_of_get hget]
    exact Table.get_mem hget

theorem items_set_of_notMem (h : k ∉ d.keys) : (d.set k v).items = d.items ++ [(k, v)] := by
  have hnone : Table.get Prod.fst d.items k = none :=
    Option.map_eq_none_iff.mp (get_eq_none_iff.mpr h)
  rw [set, dif_pos hnone]

/-- What is filled in stands behind what was there. -/
theorem items_fill (h : Table.Unique Prod.fst l) :
    (d.fill l).items = d.items ++ d.missing l := by
  unfold missing
  induction l generalizing d with
  | nil => simp [fill]
  | cons x l ih =>
    rw [Table.Unique, List.map_cons, List.nodup_cons] at h
    rw [fill, List.foldl_cons, ← fill]
    by_cases hx : x.1 ∈ d.keys
    · rw [if_pos hx, ih h.2, List.filter_cons_of_neg (by simpa using hx)]
    · rw [if_neg hx, ih h.2, items_set_of_notMem hx, List.filter_cons_of_pos (by simpa using hx),
        List.append_assoc, List.singleton_append]
      have hkeys : (d.set x.1 x.2).keys = d.keys ++ [x.1] := by
        rw [keys, items_set_of_notMem hx, List.map_append]
        rfl
      refine congrArg (fun rest => d.items ++ x :: rest) (List.filter_congr fun y hy => ?_)
      have hne : y.1 ≠ x.1 := fun heq => h.1 (heq ▸ List.mem_map_of_mem hy)
      simp [hkeys, hne]

theorem items_set_of_mem (h : k ∈ d.keys) :
    (d.set k v).items = Table.alter Prod.fst k (fun x => (x.1, v)) d.items := by
  have hsome : Table.get Prod.fst d.items k ≠ none := fun hnone =>
    get_eq_none_iff.mp (Option.map_eq_none_iff.mpr hnone) h
  rw [set, dif_neg hsome]

theorem mem_keys_set : j ∈ (d.set k v).keys ↔ j ∈ d.keys ∨ j = k := by
  rw [← not_iff_not, not_or, ← get_eq_none_iff, ← get_eq_none_iff, get_set]
  by_cases hj : j = k <;> simp [hj]

theorem mem_keys_update : j ∈ (d.update l).keys ↔ j ∈ d.keys ∨ j ∈ l.map Prod.fst := by
  induction l generalizing d with
  | nil => simp [update]
  | cons x l ih =>
    rw [update, List.foldl_cons, ← update, ih, mem_keys_set, List.map_cons, List.mem_cons, or_assoc]

/-- `del d[k]`. -/
def erase (d : Dict κ α) (k : κ) : Dict κ α :=
  ⟨d.items.filter fun x => x.1 ≠ k, d.unique.sublist (List.filter_sublist.map _)⟩

/-- `d.popitem()` takes the item that was added last. -/
def popItem (d : Dict κ α) : Option ((κ × α) × Dict κ α) :=
  d.items.getLast?.map fun x =>
    (x, ⟨d.items.dropLast, d.unique.sublist ((List.dropLast_sublist _).map _)⟩)

end Dict

/-! ## Keys that count up to a fold -/

/-- Under each folded key, the key as it was first written and its value. -/
abbrev Folded (κ' κ α : Type) := Dict κ' (κ × α)

namespace Folded

variable {κ κ' α : Type} (fold : κ → κ') {m : Folded κ' κ α} {d : Dict κ α} {j k : κ} {v : α}
  {l : List (κ × α)}

section words

variable [DecidableEq κ']

def lookup (m : Folded κ' κ α) (k : κ) : Option α := (Dict.get m (fold k)).map Prod.snd

/-- A key that is written again shows as before. -/
def write (m : Folded κ' κ α) (k : κ) (v : α) : Folded κ' κ α :=
  Dict.set m (fold k) (((Dict.get m (fold k)).map Prod.fst).getD k, v)

def writeAll (m : Folded κ' κ α) (l : List (κ × α)) : Folded κ' κ α :=
  l.foldl (fun m x => write fold m x.1 x.2) m

theorem writeAll_append {l' : List (κ × α)} :
    writeAll fold m (l ++ l') = writeAll fold (writeAll fold m l) l' := List.foldl_append

end words

/-- The keys as they show, each with its value. -/
def shown (m : Folded κ' κ α) : List (κ × α) := m.items.map Prod.snd

/-- A dictionary is the folded one with its keys as they show. -/
def Shows (d : Dict κ α) (m : Folded κ' κ α) : Prop :=
  m.items = d.items.map fun x => (fold x.1, x)

variable {fold}

theorem Shows.shown (h : Shows fold d m) : shown m = d.items := by
  rw [Folded.shown, h, List.map_map]
  exact List.map_id _

theorem Shows.nodup (h : Shows fold d m) : (d.keys.map fold).Nodup := by
  have hkeys : d.keys.map fold = m.keys := by
    rw [Dict.keys, Dict.keys, h, List.map_map, List.map_map]
    rfl
  rw [hkeys]
  exact m.unique

theorem shows_empty : Shows fold (Dict.empty : Dict κ α) Dict.empty := rfl

variable [DecidableEq κ']

/-- What stands under a folded key is the one item whose key folds to it. -/
theorem Shows.get (h : Shows fold d m) :
    Dict.get m (fold k) = d.items.find? fun x => fold x.1 = fold k := by
  rw [Dict.get, Table.get, h, List.find?_map, Option.map_map]
  exact congrFun Option.map_id _

theorem Shows.get_of_mem (h : Shows fold d m) {x : κ × α} (hx : x ∈ d.items) :
    Dict.get m (fold x.1) = some x := by
  have hmem : (fold x.1, x) ∈ m.items := h ▸ List.mem_map_of_mem hx
  rw [Dict.get, Table.get_of_mem m.unique hmem]
  rfl

omit [DecidableEq κ'] in
theorem Shows.eq_of_fold (h : Shows fold d m) (hj : j ∈ d.keys)
    (hk : k ∈ d.keys) (hjk : fold j = fold k) : j = k :=
  List.inj_on_of_nodup_map h.nodup hj hk hjk

variable [DecidableEq κ]

/-- A key that is there takes another value. -/
theorem Shows.set_of_mem (h : Shows fold d m) (hj : j ∈ d.keys)
    (hjk : fold j = fold k) : Shows fold (d.set j v) (write fold m k v) := by
  obtain ⟨x, hx, rfl⟩ := List.mem_map.mp hj
  have hget : Dict.get m (fold k) = some x := hjk ▸ h.get_of_mem hx
  have hm : fold k ∈ m.keys := by
    rw [Dict.keys, h, List.map_map, ← hjk]
    exact List.mem_map_of_mem hx
  rw [write, hget, Shows, Dict.items_set_of_mem hm, Dict.items_set_of_mem hj, Table.alter,
    Table.alter, h, List.map_map, List.map_map]
  refine List.map_congr_left fun y hy => ?_
  have hiff : fold y.1 = fold k ↔ y.1 = x.1 :=
    ⟨fun hfold => h.eq_of_fold (List.mem_map_of_mem hy) hj (hfold.trans hjk.symm),
      fun heq => heq ▸ hjk⟩
  by_cases hyx : y.1 = x.1
  · simp [hyx, hjk]
  · simp [hyx, hiff]

/-- A key that folds as no other is added as it is written. -/
theorem Shows.set_of_none (h : Shows fold d m) (hk : Dict.get m (fold k) = none) :
    Shows fold (d.set k v) (write fold m k v) := by
  have hnew : k ∉ d.keys := fun hmem => by
    obtain ⟨x, hx, rfl⟩ := List.mem_map.mp hmem
    rw [h.get_of_mem hx] at hk
    cases hk
  rw [write, hk, Shows, Dict.items_set_of_notMem (Dict.get_eq_none_iff.mp hk),
    Dict.items_set_of_notMem hnew, h, List.map_append]
  rfl

/-- A key is set as it stands, where no other one folds as it does. -/
theorem Shows.set (h : Shows fold d m) (hk : ∀ j ∈ d.keys, fold j = fold k → j = k) :
    Shows fold (d.set k v) (write fold m k v) := by
  by_cases hmem : k ∈ d.keys
  · exact h.set_of_mem hmem rfl
  · apply h.set_of_none
    rw [h.get, List.find?_eq_none]
    intro x hx hfold
    have hj := List.mem_map_of_mem (f := Prod.fst) hx
    exact hmem (hk x.1 hj (by simpa using hfold) ▸ hj)

/-- The keys of an update fold apart, from each other and from those that are there. -/
def Apart (fold : κ → κ') (d : Dict κ α) (l : List (κ × α)) : Prop :=
  ∀ j ∈ d.keys ++ l.map Prod.fst, ∀ k ∈ d.keys ++ l.map Prod.fst, fold j = fold k → j = k

theorem Shows.update (h : Shows fold d m) (hl : Apart fold d l) :
    Shows fold (d.update l) (writeAll fold m l) := by
  induction l generalizing d m with
  | nil => exact h
  | cons x l ih =>
    have hset : Shows fold (d.set x.1 x.2) (write fold m x.1 x.2) :=
      h.set fun j hj => hl j (List.mem_append_left _ hj) x.1 (by simp)
    refine ih hset fun j hj k hk => hl j ?_ k ?_
    · simpa [Dict.mem_keys_set, or_assoc] using hj
    · simpa [Dict.mem_keys_set, or_assoc] using hk

omit [DecidableEq κ'] in
/-- The keys of an updated dictionary fold apart just if those of the update do. -/
theorem nodup_update_iff :
    ((d.update l).keys.map fold).Nodup ↔ Apart fold d l := by
  have hunique : (d.update l).keys.Nodup := (d.update l).unique
  rw [List.nodup_map_iff_inj_on hunique]
  simp only [Apart, List.mem_append, Dict.mem_keys_update]

theorem Shows.erase (h : Shows fold d m) (hj : j ∈ d.keys)
    (hjk : fold j = fold k) : Shows fold (d.erase j) (Dict.erase m (fold k)) := by
  change (m.items.filter fun x => x.1 ≠ fold k) = _
  rw [h, List.filter_map, Dict.erase]
  congr 1
  refine List.filter_congr fun x hx => ?_
  rw [Function.comp_apply, decide_eq_decide]
  exact not_congr ⟨fun hfold => h.eq_of_fold (List.mem_map_of_mem hx) hj (hfold.trans hjk.symm),
    fun heq => heq ▸ hjk⟩

omit [DecidableEq κ'] [DecidableEq κ] in
/-- What is taken last is what shows last. -/
theorem Shows.popItem (h : Shows fold d m) : Option.Rel
    (fun r r' => r.1 = r'.1.2 ∧ Shows fold r.2 r'.2) d.popItem (Dict.popItem m) := by
  have hlast : m.items.getLast? = d.items.getLast?.map fun x => (fold x.1, x) := by
    rw [h, List.getLast?_map]
  rw [Dict.popItem, Dict.popItem, hlast]
  cases d.items.getLast? with
  | none => exact .none
  | some x =>
    refine .some ⟨rfl, ?_⟩
    change m.items.dropLast = d.items.dropLast.map _
    rw [h, List.map_dropLast]

omit [DecidableEq κ] in
theorem items_writeAll (hl : (m.keys ++ l.map fun x => fold x.1).Nodup) :
    (writeAll fold m l).items = m.items ++ l.map fun x => (fold x.1, x) := by
  induction l generalizing m with
  | nil => simp [writeAll]
  | cons x l ih =>
    have hnew : fold x.1 ∉ m.keys := fun hmem =>
      List.disjoint_of_nodup_append hl hmem List.mem_cons_self
    have hwrite : (write fold m x.1 x.2).items = m.items ++ [(fold x.1, x)] := by
      rw [write, Dict.get_eq_none_iff.mpr hnew, Dict.items_set_of_notMem hnew]
      rfl
    have hkeys : (write fold m x.1 x.2).keys = m.keys ++ [fold x.1] := by
      rw [Dict.keys, hwrite, List.map_append]
      rfl
    rw [writeAll, List.foldl_cons, ← writeAll, ih (by simpa [hkeys] using hl), hwrite]
    simp

omit [DecidableEq κ] in
/-- A folded dictionary is the one that its items write. -/
theorem Shows.writeAll_items (h : Shows fold d m) :
    (writeAll fold Dict.empty d.items).items = m.items := by
  rw [items_writeAll (by simpa [Dict.keys, Dict.empty, Function.comp_def] using h.nodup), h]
  rfl

end Folded

end CwStation
