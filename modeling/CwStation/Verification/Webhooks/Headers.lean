import CwStation.Model.Headers
import Mathlib.Data.List.Induction

/-! # Headers under the lower-cased name

`CaseInsensitiveDict` against a map whose keys are the lower-cased names. -/

namespace CwStation.Webhooks

open CaseInsensitiveDict

/-- Under each lower-cased name, the spelling it came with first and the value. -/
abbrev CaselessMap (α : Type) := Folded Str Str α

namespace CaselessMap

variable {α : Type} (u : Unicode)

def update (m : CaselessMap α) (args : List (List (Str × α))) (kwargs : List (Str × α)) :
    Except DictError (CaselessMap α) :=
  if args.length ≤ 1 then .ok (Folded.writeAll u.lower m (args.flatten ++ kwargs))
  else .error (.typeError s!"update expected at most 1 argument, got {args.length}")

/-- A call to the map returns what the dictionary should. -/
def call (m : CaselessMap α) : CaseInsensitiveDict.Call α →
    Except DictError (CaseInsensitiveDict.Answer α × CaselessMap α)
  | .init args kwargs => (update u Dict.empty args kwargs).map fun m => (.nothing, m)
  | .setItem key value => .ok (.nothing, Folded.write u.lower m key value)
  | .delItem key =>
      if Folded.lookup u.lower m key = none then .error (.keyError key)
      else .ok (.nothing, Dict.erase m (u.lower key))
  | .pop key default =>
      match Folded.lookup u.lower m key with
      | some value => .ok (.value value, Dict.erase m (u.lower key))
      | none =>
          match default with
          | value :: _ => .ok (.value value, m)
          | [] => .error (.keyError key)
  | .popItem =>
      match Dict.popItem m with
      | some (item, rest) => .ok (.item item.2.1 item.2.2, rest)
      | none => .error (.keyError "popitem(): dictionary is empty".toList)
  | .setdefault key default =>
      match Folded.lookup u.lower m key with
      | some value => .ok (.value value, m)
      | none => .ok (.value default, Folded.write u.lower m key default)
  | .update args kwargs => (update u m args kwargs).map fun m => (.nothing, m)
  | .ior other => .ok (.nothing, Folded.writeAll u.lower m other)
  | .copy => .ok (.nothing, m)
  | .clear => .ok (.nothing, Dict.empty)

def afterCall (m : CaselessMap α) (c : CaseInsensitiveDict.Call α) : CaselessMap α :=
  match call u m c with
  | .ok r => r.2
  | .error _ => m

def run (calls : List (CaseInsensitiveDict.Call α)) : CaselessMap α := calls.foldl (afterCall u) Dict.empty

end CaselessMap

namespace CaseInsensitiveDict

variable {α : Type} {u : Unicode} {d : CaseInsensitiveDict α} {m : CaselessMap α} {key : Str}

/-- The dictionary is the map, in the spelling the keys came with first. -/
def Shows (u : Unicode) (d : CaseInsensitiveDict α) (m : CaselessMap α) : Prop :=
  Folded.Shows u.lower d.toDict m

/-- One look through the keys finds the spelling that the map has. -/
theorem actualKey_eq (h : d.Shows u m) :
    d.actualKey u key = (Dict.get m (u.lower key)).map Prod.fst := by
  rw [actualKey]
  split
  · rename_i hmem
    obtain ⟨x, hx, rfl⟩ := List.mem_map.mp hmem
    rw [Folded.Shows.get_of_mem h hx]
    rfl
  · have hunique : Table.Unique Prod.fst (d.toDict.keys.map fun k => (u.lower k, k)) := by
      rw [Table.Unique, List.map_map]
      exact Folded.Shows.nodup h
    rw [fold, Dict.get_update, Dict.get_empty, Option.or_none, Dict.last_eq_get hunique,
      Folded.Shows.get h, Table.get, Dict.keys, List.map_map, List.find?_map, Option.map_map]
    rfl

theorem superItem_eq {x : Str × α} (hx : x ∈ d.items) : d.superItem x.1 = .ok x.2 := by
  rw [superItem, Dict.get, Table.get_of_mem d.unique hx]
  rfl

/-- A key is found in some spelling just where the map has it. -/
theorem found (h : d.Shows u m) (key : Str) :
    (d.actualKey u key = none ∧ Folded.lookup u.lower m key = none) ∨
      ∃ x ∈ d.items, u.lower x.1 = u.lower key ∧ d.actualKey u key = some x.1 ∧
        Folded.lookup u.lower m key = some x.2 := by
  rw [actualKey_eq h, Folded.lookup, Folded.Shows.get h]
  cases hfind : d.items.find? fun x => u.lower x.1 = u.lower key with
  | none => exact .inl ⟨rfl, rfl⟩
  | some x =>
    have hlower := List.find?_some hfind
    exact .inr ⟨x, List.mem_of_find?_eq_some hfind, by simpa using hlower, rfl, rfl⟩

/-! ## Lookups -/

theorem getItem_eq (h : d.Shows u m) : d.getItem u key =
    (Folded.lookup u.lower m key).elim (.error (.keyError key)) .ok := by
  rcases found h key with ⟨hkey, hlookup⟩ | ⟨x, hx, _, hkey, hlookup⟩
  · simp [getItem, hkey, hlookup]
  · simp [getItem, hkey, hlookup, superItem_eq hx]

theorem contains_eq (h : d.Shows u m) :
    d.contains u key = (Folded.lookup u.lower m key).isSome := by
  rcases found h key with ⟨hkey, hlookup⟩ | ⟨x, _, _, hkey, hlookup⟩
  · simp [contains, hkey, hlookup]
  · simp [contains, hkey, hlookup]

theorem get_eq (h : d.Shows u m) (default : α) :
    d.get u key default = .ok ((Folded.lookup u.lower m key).getD default) := by
  rcases found h key with ⟨hkey, hlookup⟩ | ⟨x, hx, _, hkey, hlookup⟩
  · simp [get, hkey, hlookup]
  · simp [get, hkey, hlookup, superItem_eq hx]

/-! ## Writes -/

theorem shows_setItem (h : d.Shows u m) (value : α) :
    (d.setItem u key value).Shows u (Folded.write u.lower m key value) := by
  rcases found h key with ⟨hkey, hlookup⟩ | ⟨x, hx, hlower, hkey, hlookup⟩
  · rw [setItem, hkey]
    exact Folded.Shows.set_of_none h (Option.map_eq_none_iff.mp hlookup)
  · rw [setItem, hkey]
    exact Folded.Shows.set_of_mem h (List.mem_map_of_mem hx) hlower

theorem shows_setItems (h : d.Shows u m) (items : List (Str × α)) :
    (d.setItems u items).Shows u (Folded.writeAll u.lower m items) := by
  induction items generalizing d m with
  | nil => exact h
  | cons x items ih => exact ih (shows_setItem h x.2)

theorem shows_copy (h : d.Shows u m) : (setItems u ⟨Dict.empty⟩ d.items).Shows u m := by
  have hcopied : (setItems u ⟨Dict.empty⟩ d.items).Shows u (Folded.writeAll u.lower Dict.empty d.items) :=
    shows_setItems Folded.shows_empty d.items
  rwa [Shows, Folded.Shows, Folded.Shows.writeAll_items h] at hcopied

/-! ## Calls -/

/-- The answers are the same, and so is what is left. -/
def Matches (u : Unicode) :
    Except DictError (Answer α × CaseInsensitiveDict α) → Except DictError (Answer α × CaselessMap α) →
      Prop
  | .ok r, .ok r' => r.1 = r'.1 ∧ r.2.Shows u r'.2
  | .error e, .error e' => e = e'
  | _, _ => False

theorem matches_update (h : d.Shows u m) (args : List (List (Str × α))) (kwargs : List (Str × α)) :
    Matches u ((d.update u args kwargs).map fun d => (.nothing, d))
      ((CaselessMap.update u m args kwargs).map fun m => (.nothing, m)) := by
  match args with
  | [] => exact ⟨rfl, shows_setItems h kwargs⟩
  | [other] =>
    refine ⟨rfl, ?_⟩
    rw [List.flatten_singleton, Folded.writeAll_append]
    exact shows_setItems (shows_setItems h other) kwargs
  | first :: second :: rest =>
    have hmany : ¬ (first :: second :: rest).length ≤ 1 := by simp
    rw [CaselessMap.update, if_neg hmany]
    exact rfl

theorem matches_pop (h : d.Shows u m) (default : List α) :
    Matches u (d.call u (.pop key default)) (CaselessMap.call u m (.pop key default)) := by
  rcases found h key with ⟨hkey, hlookup⟩ | ⟨x, hx, hlower, hkey, hlookup⟩
  · rw [call, pop.eq_def, hkey]
    simp only [CaselessMap.call, hlookup]
    cases default with
    | nil => exact rfl
    | cons value _ => exact ⟨rfl, h⟩
  · rw [call, pop.eq_def, hkey]
    simp only [CaselessMap.call, hlookup, superItem_eq hx]
    exact ⟨rfl, Folded.Shows.erase h (List.mem_map_of_mem hx) hlower⟩

theorem matches_delItem (h : d.Shows u m) :
    Matches u (d.call u (.delItem key)) (CaselessMap.call u m (.delItem key)) := by
  rcases found h key with ⟨hkey, hlookup⟩ | ⟨x, hx, hlower, hkey, hlookup⟩
  · rw [call, delItem, hkey, CaselessMap.call, if_pos hlookup]
    exact rfl
  · rw [call, delItem, hkey, CaselessMap.call, if_neg (by simp [hlookup])]
    simp only [superItem_eq hx]
    exact ⟨rfl, Folded.Shows.erase h (List.mem_map_of_mem hx) hlower⟩

theorem matches_setdefault (h : d.Shows u m) (default : α) :
    Matches u (d.call u (.setdefault key default))
      (CaselessMap.call u m (.setdefault key default)) := by
  rcases found h key with ⟨hkey, hlookup⟩ | ⟨x, hx, _, hkey, hlookup⟩
  · rw [call, setdefault, hkey, CaselessMap.call, hlookup]
    exact ⟨rfl, Folded.Shows.set_of_none h (Option.map_eq_none_iff.mp hlookup)⟩
  · rw [call, setdefault, hkey, CaselessMap.call, hlookup]
    simp only [superItem_eq hx]
    exact ⟨rfl, h⟩

theorem matches_popItem (h : d.Shows u m) :
    Matches u (d.call u .popItem) (CaselessMap.call u m .popItem) := by
  have hrel := Folded.Shows.popItem h
  rw [call, popItem, CaselessMap.call]
  generalize d.toDict.popItem = taken at hrel
  generalize Dict.popItem m = taken' at hrel
  cases hrel with
  | none => exact rfl
  | some hr =>
    obtain ⟨hitem, hrest⟩ := hr
    refine ⟨?_, hrest⟩
    simp [hitem]

/-- The storage is written as it stands by `|=` alone. -/
def Call.Clean (u : Unicode) (d : CaseInsensitiveDict α) : Call α → Prop
  | .ior other => Folded.Apart u.lower d.toDict other
  | _ => True

theorem matches_call (h : d.Shows u m) {c : Call α} (hc : c.Clean u d) :
    Matches u (d.call u c) (CaselessMap.call u m c) := by
  cases c with
  | init args kwargs => exact matches_update (d := ⟨Dict.empty⟩) Folded.shows_empty args kwargs
  | setItem key value => exact ⟨rfl, shows_setItem h value⟩
  | delItem key => exact matches_delItem h
  | pop key default => exact matches_pop h default
  | popItem => exact matches_popItem h
  | setdefault key default => exact matches_setdefault h default
  | update args kwargs => exact matches_update h args kwargs
  | ior other => exact ⟨rfl, Folded.Shows.update h hc⟩
  | copy => exact ⟨rfl, shows_copy h⟩
  | clear => exact ⟨rfl, Folded.shows_empty⟩

theorem Matches.after {c : Call α} (hcall : Matches u (d.call u c) (CaselessMap.call u m c))
    (h : d.Shows u m) : (d.afterCall u c).Shows u (CaselessMap.afterCall u m c) := by
  rw [afterCall, CaselessMap.afterCall]
  generalize d.call u c = r at hcall
  generalize CaselessMap.call u m c = r' at hcall
  match r, r', hcall with
  | .ok _, .ok _, hok => exact hok.2
  | .error _, .error _, _ => exact h

theorem Matches.answer {r : Except DictError (Answer α × CaseInsensitiveDict α)}
    {r' : Except DictError (Answer α × CaselessMap α)} (h : Matches u r r') :
    r.map Prod.fst = r'.map Prod.fst := by
  match r, r', h with
  | .ok _, .ok _, hok => exact congrArg Except.ok hok.1
  | .error _, .error _, herror => exact congrArg Except.error herror

/-! ## Runs -/

/-- No two keys are equal but for their case, each shows as it came first, and every lookup finds
what the map has under the lower-cased name. -/
structure Keyed (u : Unicode) (d : CaseInsensitiveDict α) (m : CaselessMap α) : Prop where
  distinct : d.keys.Pairwise fun j k => u.lower j ≠ u.lower k
  shown : d.items = Folded.shown m
  getItem : ∀ key, d.getItem u key =
    (Folded.lookup u.lower m key).elim (.error (.keyError key)) .ok
  contains : ∀ key, d.contains u key = (Folded.lookup u.lower m key).isSome
  get : ∀ key default, d.get u key default = .ok ((Folded.lookup u.lower m key).getD default)

theorem keyed (h : d.Shows u m) : Keyed u d m where
  distinct := List.pairwise_map.mp (Folded.Shows.nodup h)
  shown := (Folded.Shows.shown h).symm
  getItem _ := getItem_eq h
  contains _ := contains_eq h
  get _ default := get_eq h default

/-- Every call answers as the map does, and after each the dictionary is as the map. -/
structure Caseless (u : Unicode) (calls : List (Call α)) : Prop where
  keyed : ∀ before, before <+: calls → Keyed u (run u before) (CaselessMap.run u before)
  answer : ∀ before c, before ++ [c] <+: calls → ((run u before).call u c).map Prod.fst =
    (CaselessMap.call u (CaselessMap.run u before) c).map Prod.fst

theorem run_append (calls : List (Call α)) (c : Call α) :
    run u (calls ++ [c]) = (run u calls).afterCall u c := by
  rw [run, List.foldl_append, ← run]
  rfl

theorem shows_run {calls : List (Call α)}
    (h : ∀ before c, before ++ [c] <+: calls → c.Clean u (run u before)) :
    (run u calls).Shows u (CaselessMap.run u calls) := by
  induction calls using List.reverseRecOn with
  | nil => exact Folded.shows_empty
  | append_singleton calls c ih =>
    have hbefore : (run u calls).Shows u (CaselessMap.run u calls) :=
      ih fun before c' hpre => h before c' (hpre.trans (List.prefix_append _ _))
    rw [run_append, CaselessMap.run, List.foldl_append, ← CaselessMap.run]
    exact (matches_call hbefore (h calls c List.prefix_rfl)).after hbefore

/-- The dictionary is a map under the lower-cased names through a run just if no `|=` of it brings
a key in another spelling than one that is there, or than one it brings itself. -/
theorem caseless_iff (u : Unicode) (calls : List (Call α)) :
    Caseless u calls ↔ ∀ before other, before ++ [.ior other] <+: calls →
      ∀ j ∈ (run u before).keys ++ other.map Prod.fst,
        ∀ k ∈ (run u before).keys ++ other.map Prod.fst, u.lower j = u.lower k → j = k := by
  constructor
  · intro h before other hpre
    have hdistinct := (h.keyed _ hpre).distinct
    rw [run_append] at hdistinct
    exact Folded.nodup_update_iff.mp (List.pairwise_map.mpr hdistinct)
  · intro h
    have hclean : ∀ before c, before ++ [c] <+: calls → c.Clean u (run u before) := by
      intro before c hpre
      cases c with
      | ior other => exact h before other hpre
      | _ => trivial
    have hshows : ∀ before, before <+: calls → (run u before).Shows u (CaselessMap.run u before) :=
      fun before hbefore => shows_run fun first c hpre => hclean first c (hpre.trans hbefore)
    constructor
    · exact fun before hbefore => keyed (hshows before hbefore)
    · intro before c hpre
      have hbefore := hshows before ((List.prefix_append _ _).trans hpre)
      exact (matches_call hbefore (hclean before c hpre)).answer

/-- One header, then `|=` with its name in lower case. -/
def shadowing : List (Call Str) :=
  [.init [[("X-Foo".toList, "a".toList)]] [], .ior [("x-foo".toList, "z".toList)]]

/-- The two spellings stand beside each other. -/
theorem ior_shadows : ¬ Caseless Unicode.ascii shadowing := by
  intro h
  have hdistinct := (h.keyed shadowing List.prefix_rfl).distinct
  revert hdistinct
  decide

end CaseInsensitiveDict

end CwStation.Webhooks
