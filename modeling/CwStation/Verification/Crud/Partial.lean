import CwStation.Model.Forms
import CwStation.Verification.Python.Strings

/-! # Partial updates

A field that a payload does not name is read from the row, made form data and cleaned. It comes
back as it was unless it is a JSON string, a text that cleaning changes, or not given at all. -/

namespace CwStation.Forms

variable {α : Type}

/-! ## What is documented of the libraries -/

/-- What a `CharField` makes of a text. -/
def charText (strips : Bool) (s : Str) : Str := if strips then strip s else s

/-- `json.loads` reads what `json.dumps` writes, and a string only between quotes; a form field of
each kind takes the values of its model field. -/
structure FormLib.Documented (lib : FormLib α) : Prop where
  loads_nil : lib.loads [] = none
  loads_str : ∀ s t, lib.loads s = some (.str t) → t.length < s.length
  loads_dumps : ∀ f v, f.kind = .json → lib.valid f v → v ≠ .none → (∀ s, v ≠ .str s) →
    lib.loads (lib.dumps v) = some v
  /-- A field is required where its model field is not `blank`. -/
  valid_empty : ∀ f v, lib.valid f v → v.isEmpty = true → f.required = false
  valid_char : ∀ f strips v, f.kind = .char strips → lib.valid f v →
    v = .none ∧ f.emptyValue = .none ∨ ∃ s, v = .str s
  absent : ∀ f i v, f.kind ≠ .checkbox → f.kind ≠ .file →
    (lib.clean f i none = .ok v ↔ f.required = false ∧ v = f.emptyValue)
  checkbox_absent : ∀ f i v, f.kind = .checkbox →
    (lib.clean f i none = .ok v ↔ f.required = false ∧ v = .bool false)
  file_kept : ∀ f i data, f.kind = .file → lib.valid f i → lib.clean f i data = .ok i
  char_none : ∀ f strips i v, f.kind = .char strips →
    (lib.clean f i (some .none) = .ok v ↔ f.required = false ∧ v = f.emptyValue)
  char_text : ∀ f strips i s v, f.kind = .char strips →
    (lib.clean f i (some (.str s)) = .ok v ↔
      if charText strips s = [] then f.required = false ∧ v = f.emptyValue
      else v = .str (charText strips s) ∧ lib.valid f v ∧ Char.ofNat 0 ∉ charText strips s)
  json_none : ∀ f i v, f.kind = .json →
    (lib.clean f i (some .none) = .ok v ↔ f.required = false ∧ v = .none)
  json_text : ∀ f i s v, f.kind = .json → f.disabled = false →
    (lib.clean f i (some (.str s)) = .ok v ↔
      if s = [] then f.required = false ∧ v = .none
      else lib.loads s = some v ∧ (v.isEmpty = true → f.required = false))
  json_disabled : ∀ f v, f.kind = .json → f.disabled = true → lib.valid f v →
    lib.clean f v (some v) = .ok v
  taken : ∀ f v, f.kind = .checkbox ∨ (∃ multiple, f.kind = .native multiple) → lib.valid f v →
    lib.clean f v (some v) = .ok v ∧ lib.clean f v (some (native lib (some f) v)) = .ok v

/-- The stored values of a row are valid for the model fields of the form. -/
def Stored (lib : FormLib α) (form : FormClass α) (row : Row α) : Prop :=
  ∀ f ∈ form.fields, ∀ v, row.get f.name = some v → lib.valid f v

/-! ## What comes of a field -/

/-- The form finds a value for the field without the payload's help. -/
def Given (view : View α) (f : FormField α) : Prop :=
  f.disabled = true ∨ f.name ∈ view.instanceFields

/-- An empty value stays out of the row where the model has a default. -/
def LeftOut (view : View α) (f : FormField α) : Prop :=
  f.name ∉ view.instanceFields ∧ f.default.isSome = true ∧ f.kind.untold = false ∧
    f.emptyValue.isEmpty = true

/-- A stored value that the form takes when the payload does not name the field. -/
def Accepted (lib : FormLib α) (view : View α) (f : FormField α) (v : Value α) : Prop :=
  (Given view f → match f.kind with
    | .char strips => ∀ s, v = .str s → if charText strips s = [] then f.required = false
        else lib.valid f (.str (charText strips s)) ∧ Char.ofNat 0 ∉ charText strips s
    | .json => f.disabled = false → ∀ s, v = .str s → s ≠ [] →
        ∃ j, lib.loads s = some j ∧ (j.isEmpty = true → f.required = false)
    | _ => True) ∧
  (¬Given view f → f.kind = .file ∨ f.required = false)

/-- A stored value that comes back from the form as it was. -/
def Survives (view : View α) (f : FormField α) (v : Value α) : Prop :=
  (Given view f → match f.kind with
    | .char strips => ∀ s, v = .str s → if charText strips s = [] then
          f.emptyValue = .str s ∨ LeftOut view f
        else charText strips s = s
    | .json => f.disabled = true ∨ ∀ s, v ≠ .str s
    | _ => True) ∧
  (¬Given view f → match f.kind with
    | .file => True
    | .checkbox => v = .bool false
    | _ => v = f.emptyValue ∨ LeftOut view f)

/-- What `field.clean` gives for a field that the payload does not name. -/
def unnamed (lib : FormLib α) (view : View α) (f : FormField α) (v : Value α) :
    Except Str (Value α) :=
  lib.clean f v (if f.disabled then some v
    else if f.name ∈ view.instanceFields then some (native lib (some f) v) else none)

/-- What becomes of a stored value when the form has cleaned it to another. -/
def stays (view : View α) (f : FormField α) (v w : Value α) : Prop :=
  w = v ∨ f.default.isSome = true ∧ f.name ∉ view.instanceFields ∧ f.kind.untold = false ∧
    w.isEmpty = true

variable {lib : FormLib α} {view : View α} {f : FormField α} {v w : Value α}

/-- A `CharField` that is given what the row has. -/
theorem char_given (hlib : lib.Documented) {strips : Bool} (hkind : f.kind = .char strips)
    (hvalid : lib.valid f v) (hgiven : Given view f) :
    ((∃ w, lib.clean f v (some v) = .ok w) ↔ Accepted lib view f v) ∧
      ∀ w, lib.clean f v (some v) = .ok w → (stays view f v w ↔ Survives view f v) := by
  have huntold : f.kind.untold = false := by
    rw [hkind]
    rfl
  simp only [Accepted, Survives, hkind, hgiven, not_true_eq_false, false_imp_iff, and_true, true_imp_iff]
  rcases hlib.valid_char f strips v hkind hvalid with ⟨rfl, hempty⟩ | ⟨s, rfl⟩
  · simp only [hlib.char_none f strips .none _ hkind, hempty, reduceCtorEq, false_imp_iff,
      forall_true_iff, iff_true]
    refine ⟨⟨.none, hlib.valid_empty f .none hvalid rfl, rfl⟩, fun w hw => ?_⟩
    rw [hw.2]
    exact .inl rfl
  · simp only [hlib.char_text f strips (.str s) s _ hkind, Value.str.injEq, forall_eq']
    by_cases hnil : charText strips s = []
    · simp only [hnil, if_true]
      refine ⟨⟨fun ⟨_, hw⟩ => hw.1, fun h => ⟨_, h, rfl⟩⟩, fun w hw => ?_⟩
      rw [hw.2, stays, LeftOut]
      tauto
    · simp only [hnil, if_false]
      refine ⟨⟨fun ⟨w, hw, hok⟩ => hw ▸ hok, fun h => ⟨_, rfl, h⟩⟩, fun w hw => ?_⟩
      have hfull : w.isEmpty = false := by
        rw [hw.1]
        simpa [Value.isEmpty] using hnil
      rw [stays, hfull, hw.1]
      simp

/-- A `JSONField` that is given what the row has. -/
theorem json_given (hlib : lib.Documented) (hkind : f.kind = .json) (hvalid : lib.valid f v)
    (hdisabled : f.disabled = false) (hgiven : f.name ∈ view.instanceFields) :
    ((∃ w, lib.clean f v (some (native lib (some f) v)) = .ok w) ↔ Accepted lib view f v) ∧
      ∀ w, lib.clean f v (some (native lib (some f) v)) = .ok w →
        (stays view f v w ↔ Survives view f v) := by
  have hform : Given view f := .inr hgiven
  have hstays : ∀ w, stays view f v w ↔ w = v := by
    intro w
    simp [stays, hgiven]
  simp only [Accepted, Survives, hkind, hform, hdisabled, hstays, not_true_eq_false, false_imp_iff,
    and_true, true_imp_iff, Bool.false_eq_true, false_or]
  by_cases hstr : ∃ s, v = .str s
  · obtain ⟨s, rfl⟩ := hstr
    have hnative : native lib (some f) (.str s) = .str s := by simp [native, hkind]
    simp only [hnative, hlib.json_text f (.str s) s _ hkind hdisabled, Value.str.injEq, forall_eq']
    have hlost : ¬∀ s', (Value.str s : Value α) ≠ .str s' := fun h => h s rfl
    simp only [hlost, iff_false]
    by_cases hnil : s = []
    · have hrequired := hlib.valid_empty f (.str s) hvalid (by simp [Value.isEmpty, hnil])
      simp only [hnil, hrequired, if_true, true_and, ne_eq, not_true_eq_false, false_imp_iff, iff_true]
      refine ⟨⟨_, rfl⟩, fun w hw => ?_⟩
      rw [hw]
      exact nofun
    · simp only [hnil, if_false, ne_eq, not_false_eq_true, true_imp_iff]
      refine ⟨trivial, fun w hw heq => ?_⟩
      -- a string is read only from between quotes
      rw [heq] at hw
      exact absurd (hlib.loads_str s s hw.1) (lt_irrefl _)
  · have hstr' : ∀ s, v ≠ .str s := fun s hs => hstr ⟨s, hs⟩
    have haccepted : ∀ s, v = .str s → s ≠ [] →
        ∃ j, lib.loads s = some j ∧ (j.isEmpty = true → f.required = false) :=
      fun s hs => absurd hs (hstr' s)
    have hclean : ∀ w, lib.clean f v (some (native lib (some f) v)) = .ok w ↔ w = v := by
      intro w
      by_cases hnone : v = .none
      · have hnative : native lib (some f) v = .none := by simp [native, hkind, hnone]
        have hrequired := hlib.valid_empty f v hvalid (by simp [Value.isEmpty, hnone])
        rw [hnative, hlib.json_none f v w hkind, hnone]
        exact and_iff_right hrequired
      · have hnative : native lib (some f) v = .str (lib.dumps v) := by
          cases v <;> simp_all [native]
        have hloads := hlib.loads_dumps f v hkind hvalid hnone hstr'
        have hnil : lib.dumps v ≠ [] := by
          intro hnil
          rw [hnil, hlib.loads_nil] at hloads
          cases hloads
        rw [hnative, hlib.json_text f v _ w hkind hdisabled, if_neg hnil, hloads, Option.some.injEq]
        constructor
        · exact fun h => h.1.symm
        · intro h
          exact ⟨h.symm, h ▸ hlib.valid_empty f v hvalid⟩
    simp only [hclean, exists_eq, true_iff]
    exact ⟨haccepted, fun w hw => iff_of_true hw hstr'⟩

/-- A field that is given nothing. -/
theorem not_given (hlib : lib.Documented) (hvalid : lib.valid f v) (hgiven : ¬Given view f) :
    ((∃ w, lib.clean f v none = .ok w) ↔ Accepted lib view f v) ∧
      ∀ w, lib.clean f v none = .ok w → (stays view f v w ↔ Survives view f v) := by
  have hname : f.name ∉ view.instanceFields := fun h => hgiven (.inr h)
  simp only [Accepted, Survives, hgiven, not_false_eq_true, false_imp_iff, true_and, true_imp_iff]
  have habsent : f.kind ≠ .checkbox → f.kind ≠ .file → ((∃ w, lib.clean f v none = .ok w) ↔
      f.kind = .file ∨ f.required = false) ∧ ∀ w, lib.clean f v none = .ok w →
        (stays view f v w ↔ v = f.emptyValue ∨ LeftOut view f) := by
    intro hcheckbox hfile
    simp only [hlib.absent f v _ hcheckbox hfile, hfile, false_or]
    refine ⟨⟨fun ⟨_, hw⟩ => hw.1, fun h => ⟨_, h, rfl⟩⟩, fun w hw => ?_⟩
    rw [hw.2, stays, LeftOut, eq_comm]
    tauto
  cases hkind : f.kind with
  | checkbox =>
    simp only [hlib.checkbox_absent f v _ hkind, reduceCtorEq, false_or]
    refine ⟨⟨fun ⟨_, hw⟩ => hw.1, fun h => ⟨_, h, rfl⟩⟩, fun w hw => ?_⟩
    rw [hw.2, stays]
    simp only [Value.isEmpty, Bool.false_eq_true, and_false, or_false]
    exact eq_comm
  | file =>
    simp only [hlib.file_kept f v none hkind hvalid, Except.ok.injEq, exists_eq', true_or, iff_true]
    exact ⟨trivial, fun w hw => .inl hw.symm⟩
  | char => simpa only [hkind] using habsent (by simp [hkind]) (by simp [hkind])
  | json => simpa only [hkind] using habsent (by simp [hkind]) (by simp [hkind])
  | native => simpa only [hkind] using habsent (by simp [hkind]) (by simp [hkind])

/-- A field that is given a value it takes as it is. -/
theorem taken_as_is {data : Option (Value α)} (hclean : lib.clean f v data = .ok v)
    (haccepted : Accepted lib view f v) (hsurvives : Survives view f v) :
    ((∃ w, lib.clean f v data = .ok w) ↔ Accepted lib view f v) ∧
      ∀ w, lib.clean f v data = .ok w → (stays view f v w ↔ Survives view f v) := by
  refine ⟨iff_of_true ⟨v, hclean⟩ haccepted, fun w hw => iff_of_true ?_ hsurvives⟩
  rw [hclean] at hw
  exact .inl (Except.ok.inj hw).symm

theorem taken_given (hlib : lib.Documented)
    (hkind : f.kind = .checkbox ∨ ∃ multiple, f.kind = .native multiple) (hvalid : lib.valid f v)
    (hgiven : Given view f) : unnamed lib view f v = .ok v := by
  obtain ⟨hinitial, hnative⟩ := hlib.taken f v hkind hvalid
  rw [unnamed]
  split
  · exact hinitial
  · next hdisabled =>
      rw [if_pos (hgiven.resolve_left hdisabled)]
      exact hnative

/-- What the form makes of a stored value that the payload does not name. -/
theorem unnamed_iff (hlib : lib.Documented) (hvalid : lib.valid f v) :
    ((∃ w, unnamed lib view f v = .ok w) ↔ Accepted lib view f v) ∧
      ∀ w, unnamed lib view f v = .ok w → (stays view f v w ↔ Survives view f v) := by
  by_cases hgiven : Given view f
  · cases hkind : f.kind with
    | char strips =>
      have hnative : native lib (some f) v = v := by
        rcases hlib.valid_char f strips v hkind hvalid with ⟨rfl, -⟩ | ⟨s, rfl⟩ <;>
          simp [native, hkind]
      have hdata : unnamed lib view f v = lib.clean f v (some v) := by
        rw [unnamed, hnative]
        split
        · rfl
        · next hdisabled => rw [if_pos (hgiven.resolve_left hdisabled)]
      rw [hdata]
      exact char_given hlib hkind hvalid hgiven
    | json =>
      by_cases hdisabled : f.disabled = true
      · rw [unnamed, if_pos hdisabled]
        refine taken_as_is (hlib.json_disabled f v hkind hdisabled hvalid) ?_ ?_
        · simp [Accepted, hkind, hgiven, hdisabled]
        · simp [Survives, hkind, hgiven, hdisabled]
      · have hmem := hgiven.resolve_left hdisabled
        rw [unnamed, if_neg hdisabled, if_pos hmem]
        exact json_given hlib hkind hvalid (by simpa using hdisabled) hmem
    | checkbox =>
      refine taken_as_is (taken_given hlib (.inl hkind) hvalid hgiven) ?_ ?_
      · simp [Accepted, hkind, hgiven]
      · simp [Survives, hkind, hgiven]
    | file =>
      rw [unnamed]
      refine taken_as_is (hlib.file_kept f v _ hkind hvalid) ?_ ?_
      · simp [Accepted, hkind, hgiven]
      · simp [Survives, hkind, hgiven]
    | native multiple =>
      refine taken_as_is (taken_given hlib (.inr ⟨multiple, hkind⟩) hvalid hgiven) ?_ ?_
      · simp [Accepted, hkind, hgiven]
      · simp [Survives, hkind, hgiven]
  · have hparts := not_or.mp hgiven
    rw [unnamed, if_neg hparts.1, if_neg hparts.2]
    exact not_given hlib hvalid hgiven

/-! ## The data of an update -/

theorem get_seeded (lib : FormLib α) (form : FormClass α) (row : Row α) (fields : List Str) (k : Str) :
    (Dict.empty.update ((modelToDict row (some fields)).map fun x =>
        (x.1, native lib (form.get x.1) x.2))).get k =
      if k ∈ fields then (row.get k).map (native lib (form.get k)) else none := by
  rw [Dict.get_update, Dict.get_empty, Option.or_none, modelToDict,
    Dict.last_map_filter fun key value => native lib (form.get key) value,
    Dict.last_eq_get row.unique]
  rfl

theorem get_entries {form : FormClass α} {incoming : Incoming α} {k : Str} (h : k ∉ incoming.names) :
    Dict.last k (incoming.entries lib form) = none := by
  apply Dict.last_eq_none
  cases incoming with
  | mapping items =>
    rw [Incoming.entries, List.map_map]
    exact h
  | query items =>
    rw [Incoming.entries, List.map_map]
    exact h

/-- What the data have for a field that the payload does not name. -/
theorem get_merge {form : FormClass α} {incoming : Incoming α} (row : Row α) (fields : List Str)
    (hf : f ∈ form.fields) (hname : f.name ∉ incoming.names) :
    (mergeFormPayload lib form incoming (some row) (some fields) false).get f.name =
      if f.name ∈ fields then (row.get f.name).map (native lib (some f)) else none := by
  have hfield : form.get f.name = some f := Table.get_of_mem form.unique hf
  simp only [mergeFormPayload]
  rw [Dict.get_update, get_entries hname, Option.none_or, if_neg Bool.false_ne_true, get_seeded, hfield]

/-! ## The row that is saved -/

section Saving

variable {form : FormClass α} {row : Row α} {data : Dict Str (Value α)}

theorem get_constructInstance (hf : f ∈ form.fields) :
    (constructInstance lib form row data).get f.name =
      (written lib row data f).or (row.get f.name) := by
  rw [constructInstance, Dict.get_update, Dict.last_filterMap form.unique hf]

theorem mem_fieldErrors (hf : f ∈ form.fields) :
    f.name ∈ (fieldErrors lib form row data).map Prod.fst ↔
      ¬∃ v, cleanField lib row data f = .ok v := by
  rw [fieldErrors, List.mem_map]
  constructor
  · rintro ⟨x, hx, hname⟩ ⟨v, hv⟩
    obtain ⟨f', hf', hx⟩ := List.mem_filterMap.mp hx
    cases hclean : cleanField lib row data f' with
    | ok w =>
      rw [hclean] at hx
      cases hx
    | error e =>
      rw [hclean] at hx
      have heq : f' = f := form.unique.eq_of_key hf' hf (by rw [← hname, ← Option.some.inj hx])
      rw [← heq, hclean] at hv
      cases hv
  · intro hnone
    cases hclean : cleanField lib row data f with
    | ok v => exact absurd ⟨v, hclean⟩ hnone
    | error e => exact ⟨(f.name, e), List.mem_filterMap.mpr ⟨f, hf, by rw [hclean]⟩, rfl⟩

/-- A stored value is there after the update if it stays. -/
theorem get_constructInstance_iff (hf : f ∈ form.fields) (hstored : row.get f.name = some v)
    (hdata : f.name ∈ data.keys ↔ f.name ∈ view.instanceFields)
    (hclean : cleanField lib row data f = .ok w) :
    (constructInstance lib form row data).get f.name = row.get f.name ↔ stays view f v w := by
  have hrow : f.name ∈ row.keys := by
    by_contra hnone
    rw [Dict.get_eq_none_iff.mpr hnone] at hstored
    cases hstored
  rw [get_constructInstance hf, written, hclean, hstored, stays]
  simp only [hrow, true_and, omitted, hdata, decide_eq_true_eq]
  split
  · next hleft =>
      rw [Option.some_or, Option.some.injEq]
      tauto
  · next hleft =>
      rw [Option.none_or]
      tauto

theorem submit_eq_ok_iff {row' : Row α} : submit lib form row data = .ok row' ↔
    (fieldErrors lib form row data = [] ∧
      lib.fullClean (constructInstance lib form row data)
        ((fieldErrors lib form row data).map Prod.fst) = []) ∧
      constructInstance lib form row data = row' := by
  simp only [submit]
  split
  · next hok =>
      rw [Except.ok.injEq]
      exact (and_iff_right hok).symm
  · next hrefused => exact iff_of_false nofun fun h => hrefused h.1

theorem fields_of_submit {refusal : Refusal} (h : submit lib form row data = .error refusal) :
    refusal.fields = fieldErrors lib form row data := by
  simp only [submit] at h
  split at h
  · cases h
  · rw [← Except.error.inj h]

end Saving

/-! ## Updates -/

inductive Surface
  | rest
  | mcp

/-- A `PATCH` of the API, or a call of the update tool. -/
def update (lib : FormLib α) (view : View α) : Surface → Row α → Dict Str (Value α) →
    Except Refusal (Row α)
  | .rest => apiUpdate lib view .patch
  | .mcp => updateTool lib view

/-- What a surface merges with the row. -/
def sent : Surface → Dict Str (Value α) → Dict Str (Value α)
  | .rest, payload => payload
  | .mcp, payload =>
      Dict.empty.update (payload.items.filter fun x => x.1 ∉ ["pk".toList, "id".toList])

theorem update_eq (surface : Surface) (row : Row α) (payload : Dict Str (Value α)) :
    update lib view surface row payload = submit lib view.form row
      (mergeFormPayload lib view.form (.mapping (sent surface payload)) (some row)
        (some view.instanceFields) false) := by
  cases surface <;> rfl

theorem mem_keys_sent {surface : Surface} {payload : Dict Str (Value α)} {k : Str}
    (h : k ∈ (sent surface payload).keys) : k ∈ payload.keys := by
  cases surface with
  | rest => exact h
  | mcp =>
    rw [sent, Dict.mem_keys_update] at h
    rcases h with hnil | hmem
    · cases hnil
    · obtain ⟨x, hx, rfl⟩ := List.mem_map.mp hmem
      exact List.mem_map_of_mem (List.mem_of_mem_filter hx)

/-- The form takes what it finds for a field that the payload does not name; a field that the row
does not have is one that may be left out. -/
def Fits (lib : FormLib α) (view : View α) (row : Row α) (f : FormField α) : Prop :=
  match row.get f.name with
  | some v => Accepted lib view f v
  | none => ∃ w, lib.clean f .none (if f.disabled then some .none else none) = .ok w

/-- An update changes no field that it does not name, and is refused for none. -/
def Frame (lib : FormLib α) (view : View α) (surface : Surface) (row : Row α)
    (payload : Dict Str (Value α)) : Prop :=
  ∀ f ∈ view.form.fields, f.name ∉ payload.keys →
    (∀ row', update lib view surface row payload = .ok row' → row'.get f.name = row.get f.name) ∧
      ∀ refusal, update lib view surface row payload = .error refusal →
        f.name ∉ refusal.fields.map Prod.fst

section Updates

variable {surface : Surface} {row : Row α} {payload : Dict Str (Value α)}

theorem get_merged (lib : FormLib α) (row : Row α) (hf : f ∈ view.form.fields)
    (hname : f.name ∉ payload.keys) :
    (mergeFormPayload lib view.form (.mapping (sent surface payload)) (some row)
        (some view.instanceFields) false).get f.name =
      if f.name ∈ view.instanceFields then (row.get f.name).map (native lib (some f)) else none :=
  get_merge row view.instanceFields hf fun h => hname (mem_keys_sent h)

/-- What the form cleans of a stored field that the payload does not name. -/
theorem cleanField_unnamed (hf : f ∈ view.form.fields) (hname : f.name ∉ payload.keys)
    (hv : row.get f.name = some v) :
    cleanField lib row (mergeFormPayload lib view.form (.mapping (sent surface payload)) (some row)
      (some view.instanceFields) false) f = unnamed lib view f v := by
  rw [cleanField, get_merged lib row hf hname, initial, hv, unnamed]
  rfl

theorem fits_iff (hlib : lib.Documented) (hstored : Stored lib view.form row)
    (hf : f ∈ view.form.fields) (hname : f.name ∉ payload.keys) :
    (∃ w, cleanField lib row (mergeFormPayload lib view.form (.mapping (sent surface payload))
      (some row) (some view.instanceFields) false) f = .ok w) ↔ Fits lib view row f := by
  cases hv : row.get f.name with
  | some v =>
    rw [cleanField_unnamed hf hname hv, Fits, hv]
    exact (unnamed_iff hlib (hstored f hf v hv)).1
  | none =>
    rw [cleanField, get_merged lib row hf hname, initial, hv, Fits, hv]
    simp

theorem kept_iff (hlib : lib.Documented) (hstored : Stored lib view.form row) {row' : Row α}
    (hok : update lib view surface row payload = .ok row') (hf : f ∈ view.form.fields)
    (hname : f.name ∉ payload.keys) (hv : row.get f.name = some v) :
    row'.get f.name = row.get f.name ↔ Survives view f v := by
  rw [update_eq, submit_eq_ok_iff] at hok
  obtain ⟨⟨herrors, -⟩, rfl⟩ := hok
  have hclean : ∃ w, cleanField lib row (mergeFormPayload lib view.form
      (.mapping (sent surface payload)) (some row) (some view.instanceFields) false) f = .ok w := by
    by_contra hnone
    have hmem := (mem_fieldErrors hf).mpr hnone
    rw [herrors] at hmem
    cases hmem
  obtain ⟨w, hw⟩ := hclean
  have hdata : f.name ∈ (mergeFormPayload lib view.form (.mapping (sent surface payload)) (some row)
      (some view.instanceFields) false).keys ↔ f.name ∈ view.instanceFields := by
    rw [← not_iff_not, ← Dict.get_eq_none_iff, get_merged lib row hf hname, hv]
    simp
  rw [get_constructInstance_iff hf hv hdata hw]
  rw [cleanField_unnamed hf hname hv] at hw
  exact (unnamed_iff hlib (hstored f hf v hv)).2 w hw

/-- A field of the form alone is not written. -/
theorem get_update_of_none {row' : Row α} (hok : update lib view surface row payload = .ok row')
    (hf : f ∈ view.form.fields) (hv : row.get f.name = none) : row'.get f.name = none := by
  rw [update_eq, submit_eq_ok_iff] at hok
  rw [← hok.2, get_constructInstance hf, written, hv, Option.or_none]
  split
  · exact if_neg fun h => Dict.get_eq_none_iff.mp hv h.1
  · rfl

end Updates

/-! ## A webhook endpoint -/

/-- What `Field.clean` makes of an empty input. -/
def absent (f : FormField Unit) (v : Value Unit) : Except Str (Value Unit) :=
  if f.required then .error "This field is required.".toList else .ok v

def boolText (b : Bool) : Str := if b then "true".toList else "false".toList

def readBool (s : Str) : Option (Value Unit) :=
  if s = boolText true then some (.bool true)
  else if s = boolText false then some (.bool false)
  else none

/-- The values that a kind of field has here. -/
def known (f : FormField Unit) (v : Value Unit) : Prop :=
  match f.kind, v with
  | .char _, .none => f.emptyValue = .none
  | .char _, .str _ => True
  | .json, .none => True
  | .json, .str _ => True
  | .json, .bool _ => True
  | .checkbox, .bool _ => True
  | .native _, .bool _ => True
  | .file, _ => True
  | _, _ => False

def cleanJson (f : FormField Unit) (s : Str) : Except Str (Value Unit) :=
  if f.disabled then .ok (.str s)
  else if s = [] then absent f .none
  else match readBool s with
    | some v => .ok v
    | none => .error "Enter a valid JSON.".toList

def cleanChar (f : FormField Unit) (s : Str) : Except Str (Value Unit) :=
  if s = [] then absent f f.emptyValue
  else if Char.ofNat 0 ∈ s then .error "Null characters are not allowed.".toList
  else .ok (.str s)

/-- A library whose documents are texts and truth values. -/
def plain : FormLib Unit where
  dumps
    | .bool b => boolText b
    | _ => []
  loads := readBool
  clean f i data := match f.kind, data with
    | .file, _ => .ok i
    | .checkbox, none => absent f (.bool false)
    | _, none => absent f f.emptyValue
    | .char _, some .none => absent f f.emptyValue
    | .char strips, some (.str s) => cleanChar f (charText strips s)
    | .json, some .none => absent f .none
    | .json, some (.str s) => cleanJson f s
    | _, some v => .ok v
  valid f v := (v.isEmpty = true → f.required = false) ∧ known f v
  fullClean _ _ := []

theorem absent_eq_ok {f : FormField Unit} {v w : Value Unit} :
    absent f v = .ok w ↔ f.required = false ∧ w = v := by
  unfold absent
  cases f.required <;> simp [eq_comm]

theorem readBool_boolText (b : Bool) : readBool (boolText b) = some (.bool b) := by
  cases b <;> rfl

theorem readBool_cases {s : Str} {v : Value Unit} (h : readBool s = some v) : ∃ b, v = .bool b := by
  unfold readBool at h
  split at h
  · exact ⟨true, (Option.some.inj h).symm⟩
  · split at h
    · exact ⟨false, (Option.some.inj h).symm⟩
    · cases h

theorem cleanChar_eq_ok {f : FormField Unit} {s : Str} {w : Value Unit} :
    cleanChar f s = .ok w ↔ if s = [] then f.required = false ∧ w = f.emptyValue
      else w = .str s ∧ Char.ofNat 0 ∉ s := by
  unfold cleanChar
  split
  · exact absent_eq_ok
  · split
    · simp_all
    · simp_all [eq_comm]

theorem cleanJson_eq_ok {f : FormField Unit} {s : Str} {w : Value Unit} (h : f.disabled = false) :
    cleanJson f s = .ok w ↔
      if s = [] then f.required = false ∧ w = .none else readBool s = some w := by
  rw [cleanJson, h, if_neg Bool.false_ne_true]
  split
  · exact absent_eq_ok
  · cases readBool s <;> simp

theorem plain_documented : plain.Documented where
  loads_nil := rfl
  loads_str s t h := by
    obtain ⟨b, hb⟩ := readBool_cases h
    cases hb
  loads_dumps f v hkind hvalid hnone hstr := by
    have hknown := hvalid.2
    cases v <;> simp_all [known, plain, readBool_boolText]
  valid_empty f v hvalid := hvalid.1
  valid_char f strips v hkind hvalid := by
    have hknown := hvalid.2
    cases v <;> simp_all [known]
  absent f i v hcheckbox hfile := by
    cases hkind : f.kind <;> simp_all [plain, absent_eq_ok]
  checkbox_absent f i v hkind := by
    simp [plain, hkind, absent_eq_ok]
  file_kept f i data hkind _ := by
    simp [plain, hkind]
  char_none f strips i v hkind := by
    simp [plain, hkind, absent_eq_ok]
  char_text f strips i s v hkind := by
    have hclean : plain.clean f i (some (.str s)) = cleanChar f (charText strips s) := by
      simp [plain, hkind]
    rw [hclean, cleanChar_eq_ok]
    split
    · rfl
    · next hnil =>
        refine and_congr_right fun hv => (and_iff_right ?_).symm
        rw [hv]
        exact ⟨fun h => absurd h (by simpa [Value.isEmpty] using hnil), by simp [known, hkind]⟩
  json_none f i v hkind := by
    simp [plain, hkind, absent_eq_ok]
  json_text f i s v hkind hdisabled := by
    have hclean : plain.clean f i (some (.str s)) = cleanJson f s := by simp [plain, hkind]
    rw [hclean, cleanJson_eq_ok hdisabled]
    split
    · rfl
    · refine ⟨fun h => ⟨h, ?_⟩, fun h => h.1⟩
      obtain ⟨b, rfl⟩ := readBool_cases h
      exact nofun
  json_disabled f v hkind hdisabled hvalid := by
    cases v with
    | none =>
      have hclean : plain.clean f .none (some .none) = absent f .none := by simp [plain, hkind]
      exact hclean.trans (absent_eq_ok.mpr ⟨hvalid.1 rfl, rfl⟩)
    | str s =>
      have hclean : plain.clean f (.str s) (some (.str s)) = cleanJson f s := by simp [plain, hkind]
      rw [hclean, cleanJson, if_pos hdisabled]
    | _ => simp [plain, hkind]
  taken f v hkind hvalid := by
    have hknown := hvalid.2
    rcases hkind with hkind | ⟨multiple, hkind⟩ <;> cases v <;> simp_all [plain, known, native]

def enabledField : FormField Unit where
  name := "enabled".toList
  kind := .checkbox
  required := false
  disabled := false
  emptyValue := .none
  default := some (.bool true)

def headersField : FormField Unit where
  name := "headers".toList
  kind := .json
  required := false
  disabled := false
  emptyValue := .none
  default := some (.dict [])

theorem endpoint_unique : Table.Unique FormField.name [enabledField, headersField] := by
  unfold Table.Unique
  decide

/-- An endpoint's form, with two of its fields. -/
def endpointView : View Unit where
  form := ⟨[enabledField, headersField], endpoint_unique⟩
  fields := ["enabled".toList, "headers".toList]
  detailFields := []

theorem row_unique (v : Value Unit) : Table.Unique Prod.fst
    [("enabled".toList, Value.bool true), ("headers".toList, v)] := by
  change (["enabled".toList, "headers".toList] : List Str).Nodup
  decide

/-- An enabled endpoint. -/
def endpointRow (headers : Value Unit) : Row Unit :=
  ⟨[("enabled".toList, .bool true), ("headers".toList, headers)], row_unique headers⟩

/-- `{"enabled": false}`. -/
def disable : Dict Str (Value Unit) := Dict.empty.set "enabled".toList (.bool false)

theorem stored_endpoint {headers : Value Unit} (h : plain.valid headersField headers) :
    Stored plain endpointView.form (endpointRow headers) := by
  intro f hf v hv
  rcases List.mem_pair.mp hf with rfl | rfl
  · have hget : (endpointRow headers).get enabledField.name = some (.bool true) := rfl
    rw [← Option.some.inj (hget.symm.trans hv)]
    exact ⟨fun _ => rfl, trivial⟩
  · have hget : (endpointRow headers).get headersField.name = some headers := rfl
    rw [← Option.some.inj (hget.symm.trans hv)]
    exact h

theorem headers_unnamed : headersField.name ∉ disable.keys := by decide

end CwStation.Forms
