import CwStation.Model.Python
import Mathlib.Data.List.Sort

/-! # Cross-model search: `apps/search`

The registry of indexed views, the hits a backend makes of rows, and the three places that
show rows to a user: `search_all`, the search tools, and the list of indexed sources. -/

namespace CwStation.Search

/-! ## Objects and views -/

/-- Model instances and their attributes, as the search layer reads them. Python's `None` is
the `none` of an `Option`. -/
structure Objects (ω : Type) where
  pk : ω → ℕ
  /-- `getattr(value, name, None)`. -/
  getattr : ω → Str → Except PyExc (Option ω)
  truthy : ω → Bool
  str : ω → Except PyExc Str
  /-- `get_absolute_url()`, `none` where it is missing or raises. -/
  absoluteUrl : ω → Option Str

inductive SearchAccess
  | staff
  | authenticated
  | anonymous
  /-- Anything else a view may have declared. -/
  | unknown (value : Str)
  deriving DecidableEq, Repr

def SearchAccess.isValid : SearchAccess → Bool
  | .unknown _ => false
  | _ => true

/-- A request's user; an anonymous visitor has no key. -/
structure User where
  pk : Option ℕ
  isStaff : Bool
  isAuthenticated : Bool
  deriving DecidableEq, Repr

/-- A model and its table. -/
structure Model (ω : Type) where
  label : Str
  verbose : Str
  verbosePlural : Str
  /-- The rows of `_default_manager`. -/
  rows : List ω
  /-- The rows of `objects`, which a model may do without. -/
  objects : Except PyExc (List ω)
  /-- `_display_row_count`. -/
  rowCount : Except PyExc ℕ

/-- What `transform_hit` returns: `display`, `subtitle`, and the other keys. -/
structure Transformed (ω : Type) where
  display : Option ω
  subtitle : Option ω
  extra : List (Str × ω)

/-- `IndexedView`, with what is read of the view class behind it. -/
structure IndexedView (ω : Type) where
  model : Model ω
  fields : List Str
  weights : List (Str × ℕ)
  displayField : Option Str
  subtitleField : Option Str
  access : SearchAccess
  /-- `search_visibility`: `(queryset, user) -> queryset`. -/
  visibility : Option (List ω → User → Except PyExc (List ω))
  visibilityName : Option Str
  transformHit : Option (ω → Str → Except PyExc (Transformed ω))
  urlBase : Option Str
  urlNamespace : Option Str
  mcpToolName : Option Str

structure SearchHit (ω : Type) where
  modelLabel : Str
  modelVerbose : Str
  objectId : ℕ
  display : Str
  subtitle : Str
  snippet : Str
  url : Option Str
  rank : ℚ
  extra : List (Str × ω)
  deriving DecidableEq

/-- What the search layer is given: the objects, the URL patterns, and the database's own
search. A backend reads the rows it makes hits of through `_default_manager`. -/
structure Env (ω : Type) where
  objects : Objects ω
  unicode : Unicode
  /-- `reverse(name)` and `reverse(name, kwargs={"pk": …})`, `none` for `NoReverseMatch`. -/
  reverse : Str → Option ℕ → Option Str
  /-- The rows that match a query, best first. -/
  found : IndexedView ω → Str → ℤ → Except PyExc (List (ω × ℚ))
  found_rows : ∀ view query limit os, found view query limit = .ok os →
    ∀ o ∈ os, o.1 ∈ view.model.rows
  snippet : IndexedView ω → ω → Str → Except PyExc Str
  /-- `search_help_articles`. -/
  helpArticles : Str → ℤ → Except PyExc (List (SearchHit ω))
  /-- `help_article_count`. -/
  helpCount : Except PyExc ℕ

variable {ω : Type} (env : Env ω)

/-! ## Registration -/

/-- A CRUDView with `enable_search = True`. -/
structure ViewClass (ω : Type) where
  model : Option (Model ω)
  searchFields : List Str
  searchAccess : Option SearchAccess
  /-- The rest of what the registry keeps of it. -/
  view : IndexedView ω

/-- `_search_registry`, a dict by model label. -/
structure Registry (ω : Type) where
  views : List (IndexedView ω)
  labels : (views.map (·.model.label)).Nodup

/-- `_search_registry[view.model_label] = view`. -/
def assign (view : IndexedView ω) : List (IndexedView ω) → List (IndexedView ω)
  | [] => [view]
  | v :: vs => if v.model.label = view.model.label then view :: vs else v :: assign view vs

theorem mem_assign {view v : IndexedView ω} {vs : List (IndexedView ω)} (h : v ∈ assign view vs) :
    v = view ∨ v ∈ vs := by
  induction vs with
  | nil => exact .inl (List.mem_singleton.mp h)
  | cons v₀ vs ih =>
    unfold assign at h
    split at h
    · rcases List.mem_cons.mp h with rfl | h
      · exact .inl rfl
      · exact .inr (.tail _ h)
    · rcases List.mem_cons.mp h with rfl | h
      · exact .inr (.head _)
      · exact (ih h).imp_right (.tail _)

theorem assign_labels (view : IndexedView ω) {vs : List (IndexedView ω)}
    (h : (vs.map (·.model.label)).Nodup) : ((assign view vs).map (·.model.label)).Nodup := by
  induction vs with
  | nil => simp [assign]
  | cons v vs ih =>
    rw [List.map_cons, List.nodup_cons] at h
    unfold assign
    split
    · rename_i heq
      rw [List.map_cons, List.nodup_cons, ← heq]
      exact h
    · rename_i hne
      rw [List.map_cons, List.nodup_cons]
      refine ⟨fun hmem => ?_, ih h.2⟩
      obtain ⟨v', hv', hlabel⟩ := List.mem_map.mp hmem
      rcases mem_assign hv' with rfl | hv'
      · exact hne hlabel.symm
      · exact h.1 (List.mem_map.mpr ⟨v', hv', hlabel⟩)

/-- `register`: a view without a model or without search fields is skipped, and an access
level that does not exist is read as staff-only. -/
def register (cls : ViewClass ω) (registry : Registry ω) : Registry ω :=
  match cls.model with
  | none => registry
  | some model =>
      if cls.searchFields = [] then registry
      else
        let access := cls.searchAccess.getD .staff
        let view := { cls.view with
          model := model
          fields := cls.searchFields
          access := if access.isValid then access else .staff }
        ⟨assign view registry.views, assign_labels view registry.labels⟩

/-- `SearchConfig.ready`, and the registrations of other apps behind it. -/
def registerAll (classes : List (ViewClass ω)) : Registry ω :=
  classes.foldl (fun registry cls => register cls registry) ⟨[], List.nodup_nil⟩

/-! ## The access gate -/

/-- `_user_can_see`. -/
def userCanSee (view : IndexedView ω) : Option User → Bool
  | none => true
  | some user =>
      if user.isStaff then true
      else match view.access with
        | .staff => false
        | .authenticated => user.isAuthenticated
        | .anonymous => true
        | .unknown _ => false

/-! ## From a row to a hit -/

/-- `text.split("__")`. -/
def splitDunder : Str → List Str
  | '_' :: '_' :: cs => [] :: splitDunder cs
  | [] => [[]]
  | c :: cs =>
      match splitDunder cs with
      | [] => [[c]]
      | w :: ws => (c :: w) :: ws

/-- The attributes `parts` of a value, one after the other, until one is `None`. -/
def walk (o : Objects ω) : Option ω → List Str → Except PyExc (Option ω)
  | value, [] => pure value
  | none, _ :: _ => pure none
  | some value, part :: parts => do walk o (← o.getattr value part) parts

/-- `_resolve_field`. -/
def resolveField (o : Objects ω) (obj : ω) : Option Str → Except PyExc (Option ω)
  | none => pure none
  | some path => if path = [] then pure none else walk o (some obj) (splitDunder path)

/-- `_detail_url_for`. -/
def detailUrlFor (view : IndexedView ω) (obj : ω) : Option Str :=
  match view.urlBase with
  | none => none
  | some base =>
      let name := base ++ "-detail".toList
      let name := match view.urlNamespace with
        | none => name
        | some space => space ++ ':' :: name
      env.reverse name (some (env.objects.pk obj))

/-- The dict `transform_hit` makes of a row, if the view has one and it does not raise. -/
def transformed (view : IndexedView ω) (obj : ω) (variant : Str) : Transformed ω :=
  match view.transformHit with
  | none => ⟨none, none, []⟩
  | some transform =>
      match transform obj variant with
      | .ok t => t
      | .error _ => ⟨none, none, []⟩

/-- `str(display_val)`. -/
def displayText (view : IndexedView ω) (obj : ω) (t : Transformed ω) : Except PyExc Str :=
  match t.display with
  | some value => env.objects.str value
  | none => do
      match ← resolveField env.objects obj view.displayField with
      | some value =>
          if env.objects.truthy value then env.objects.str value else env.objects.str obj
      | none => env.objects.str obj

/-- `str(subtitle_val)`. -/
def subtitleText (view : IndexedView ω) (obj : ω) (t : Transformed ω) : Except PyExc Str :=
  match t.subtitle with
  | some value => env.objects.str value
  | none => do
      match ← resolveField env.objects obj view.subtitleField with
      | some value =>
          if env.objects.truthy value then env.objects.str value else pure []
      | none => pure []

/-- `_make_hit`. -/
def makeHit (view : IndexedView ω) (obj : ω) (rank : ℚ) (snippet variant : Str) :
    Except PyExc (SearchHit ω) := do
  let t := transformed view obj variant
  let display ← displayText env view obj t
  let subtitle ← subtitleText env view obj t
  let url := match env.objects.absoluteUrl obj with
    | some url => if url = [] then detailUrlFor env view obj else some url
    | none => detailUrlFor env view obj
  pure {
    modelLabel := view.model.label
    modelVerbose := view.model.verbose
    objectId := env.objects.pk obj
    display := display.take 200
    subtitle := subtitle.take 200
    snippet := snippet
    url := url
    rank := rank
    extra := t.extra }

def hitsOf (view : IndexedView ω) (query variant : Str) :
    List (ω × ℚ) → Except PyExc (List (SearchHit ω))
  | [] => pure []
  | (obj, rank) :: rest => do
      let snippet ← env.snippet view obj query
      let hit ← makeHit env view obj rank snippet variant
      let hits ← hitsOf view query variant rest
      pure (hit :: hits)

/-- `backend.query`. -/
def backendQuery (view : IndexedView ω) (query : Str) (limit : ℤ) (variant : Str) :
    Except PyExc (List (SearchHit ω)) := do
  hitsOf env view query variant (← env.found view query limit)

/-- The rows of `SQLiteFTSBackend.query`: those with the keys of a ranking, in its order. -/
def rehydrate (o : Objects ω) (rows : List ω) (ranking : List (ℕ × ℚ)) : List (ω × ℚ) :=
  ranking.filterMap fun entry => (rows.find? fun obj => o.pk obj = entry.1).map (·, entry.2)

/-! ## `search_all` -/

/-- The rows of a table that hits stand for: `filter(pk__in=hit_ids)`. -/
def hitRows (table : List ω) (hits : List (SearchHit ω)) : List ω :=
  table.filter fun obj => decide (env.objects.pk obj ∈ hits.map (·.objectId))

/-- The hits whose keys are among the rows that a visibility callback returns. One that
raises lets no hit through. -/
def visibleHits (visibility : List ω → User → Except PyExc (List ω)) (table : Except PyExc (List ω))
    (user : User) (hits : List (SearchHit ω)) : List (SearchHit ω) :=
  match table with
  | .error _ => []
  | .ok table =>
      match visibility (hitRows env table hits) user with
      | .error _ => []
      | .ok visible => hits.filter fun h => decide (h.objectId ∈ visible.map env.objects.pk)

/-- The row gate: staff and trusted callers skip it, and so does a view without a callback. -/
def rowGate (view : IndexedView ω) (table : Except PyExc (List ω)) (user : Option User)
    (hits : List (SearchHit ω)) : List (SearchHit ω) :=
  match user, view.visibility with
  | some user, some visibility =>
      if hits ≠ [] ∧ user.isStaff = false then visibleHits env visibility table user hits
      else hits
  | _, _ => hits

/-- `variant="default"`. -/
def defaultVariant : Str := "default".toList

/-- The part of `search_all` about one view. -/
def searchView (query : Str) (limit : ℤ) (user : Option User) (view : IndexedView ω) :
    List (SearchHit ω) :=
  if userCanSee view user then
    match backendQuery env view query limit defaultVariant with
    | .error _ => []
    | .ok hits => rowGate env view (.ok view.model.rows) user hits
  else []

def helpHits (query : Str) (limit : ℤ) : List (SearchHit ω) :=
  match env.helpArticles query limit with
  | .error _ => []
  | .ok hits => hits

/-- `search_all`. -/
def searchAll (registry : Registry ω) (query : Str) (limit : ℤ) (user : Option User) :
    List (SearchHit ω) :=
  (registry.views.flatMap (searchView env query limit user) ++ helpHits env query limit).insertionSort
    fun a b => b.rank ≤ a.rank

/-! ## The search tools -/

/-- The arguments of a call: `query` and a limit, either of which may be missing. -/
structure Args where
  query : Option Str
  limit : Option ℤ
  deriving DecidableEq, Repr

/-- `int(args.get("limit") or fallback)`. -/
def Args.limitOr (args : Args) (fallback : ℤ) : ℤ :=
  match args.limit with
  | none => fallback
  | some n => if n = 0 then fallback else n

inductive Reply (ω : Type)
  | results (hits : List (SearchHit ω))
  /-- `{"results": [], "denied": True, "reason": …}`, which names the view. -/
  | denied (label : Str) (access : SearchAccess)

def Reply.hits : Reply ω → List (SearchHit ω)
  | .results hits => hits
  | .denied _ _ => []

/-- The handler of the tool for one view and variant. -/
def handler (view : IndexedView ω) (variant : Str) (args : Args) (user : Option User) :
    Except PyExc (Reply ω) :=
  let query := strip (args.query.getD [])
  if query = [] then pure (.results [])
  else if userCanSee view user then do
    let hits ← backendQuery env view query (args.limitOr 10) variant
    pure (.results (rowGate env view view.model.objects user hits))
  else pure (.denied view.model.label view.access)

/-- `_search_all_handler`. -/
def searchAllHandler (registry : Registry ω) (args : Args) (user : Option User) : Reply ω :=
  let query := strip (args.query.getD [])
  if query = [] then .results []
  else .results (searchAll env registry query (args.limitOr 5) user)

/-! ## `get_indexed_sources` -/

structure Preview where
  display : Str
  url : Option Str
  pk : ℕ
  deriving DecidableEq, Repr

/-- The text of a row in a preview. -/
def previewText (view : IndexedView ω) (obj : ω) : Except PyExc Str :=
  match view.displayField with
  | none => env.objects.str obj
  | some field =>
      if field = [] then env.objects.str obj
      else do
        match ← walk env.objects (some obj) (splitDunder field) with
        | some value => env.objects.str value
        | none => env.objects.str obj

def preview (view : IndexedView ω) (obj : ω) : Except PyExc Preview := do
  let display ← previewText env view obj
  pure ⟨display.take 80, env.objects.absoluteUrl obj, env.objects.pk obj⟩

/-- The previews up to the first row that raises, and whether there was none. -/
def previews (view : IndexedView ω) : List ω → List Preview × Bool
  | [] => ([], true)
  | obj :: rest =>
      match preview env view obj with
      | .error _ => ([], false)
      | .ok p =>
          let (ps, complete) := previews view rest
          (p :: ps, complete)

/-- The first words of previews. A text of white space has none, and ends the loop. -/
def exampleWords : List Preview → List Str
  | [] => []
  | p :: ps =>
      if p.display = [] then exampleWords ps
      else match splitSpaces p.display with
        | [] => []
        | word :: _ => if 2 ≤ word.length then word :: exampleWords ps else exampleWords ps

/-- `order_by("-pk")[:5]`. -/
def recent (view : IndexedView ω) : List ω :=
  (view.model.rows.insertionSort fun a b => env.objects.pk b ≤ env.objects.pk a).take 5

inductive SourceKind
  | model
  | help
  deriving DecidableEq, Repr

structure Source where
  kind : SourceKind
  label : Str
  modelLabel : Str
  fields : List Str
  weights : List (Str × ℕ)
  displayField : Option Str
  subtitleField : Option Str
  mcpTool : Str
  listEndpoint : Option Str
  examples : List Str
  previews : List Preview
  total : ℕ
  url : Option Str
  access : SearchAccess
  visibility : Option Str
  deriving DecidableEq, Repr

/-- `_mcp_tool_name_for`. -/
def mcpToolNameFor (view : IndexedView ω) : Str :=
  match view.mcpToolName with
  | some custom => "search_".toList ++ custom
  | none => "search_".toList ++
      (env.unicode.lower view.model.verbosePlural).map fun c => if c = ' ' then '_' else c

/-- `_list_url_for`. -/
def listUrlFor (view : IndexedView ω) : Option Str :=
  match view.urlBase with
  | none => none
  | some base =>
      match env.reverse (base ++ "-list".toList) none with
      | some url => some url
      | none => env.reverse (base ++ "_list".toList) none

/-- The entry of one view. The rows are read once they have been counted. -/
def sourceOf (view : IndexedView ω) : Source :=
  let (total, shown, examples) : ℕ × List Preview × List Str :=
    match view.model.rowCount with
    | .error _ => (0, [], [])
    | .ok total =>
        let (shown, complete) := previews env view (recent env view)
        (total, shown, if complete then exampleWords (shown.take 3) else [])
  { kind := .model
    label := view.model.verbose
    modelLabel := view.model.label
    fields := view.fields
    weights := view.weights
    displayField := view.displayField
    subtitleField := view.subtitleField
    mcpTool := mcpToolNameFor env view
    listEndpoint := listUrlFor env view
    examples := examples
    previews := shown
    total := total
    url := listUrlFor env view
    access := view.access
    visibility := view.visibilityName }

/-- The entry of the help docs, which have no rows. -/
def helpSource (n : ℕ) : Source where
  kind := .help
  label := "Help & Docs".toList
  modelLabel := "help.HelpArticle".toList
  fields := ["title".toList, "section".toList, "text".toList]
  weights := []
  displayField := some "title".toList
  subtitleField := some "section".toList
  mcpTool := "search_help".toList
  listEndpoint := some "/smallstack/help/".toList
  examples := ["custom palette".toList, "MCP setup".toList, "API tokens".toList]
  previews := []
  total := n
  url := some "/smallstack/help/".toList
  access := .anonymous
  visibility := none

def helpSources : List Source :=
  match env.helpCount with
  | .error _ => []
  | .ok n => if 0 < n then [helpSource n] else []

/-- `get_indexed_sources`. -/
def getIndexedSources (registry : Registry ω) (user : Option User) : List Source :=
  (registry.views.filter fun view => userCanSee view user).map (sourceOf env) ++ helpSources env

end CwStation.Search
