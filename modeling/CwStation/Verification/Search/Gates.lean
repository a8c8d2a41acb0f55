import CwStation.Model.Search
import Mathlib.Data.List.Induction
import Mathlib.Data.List.TakeWhile

/-! # The two gates of search

A row is shown through a view that admits the user, and where the view scopes its rows, only
if the view's callback returned it. The searches pass both gates for each hit; the previews of
the indexed sources pass the first one only. -/

namespace CwStation.Search

variable {ω : Type} (env : Env ω)

/-! ## What a user may see -/

/-- The user may find rows of the view, and its callback, given the queryset `table`, returns
the row for the user. -/
def Permitted (view : IndexedView ω) (user : User) (table : List ω) (obj : ω) : Prop :=
  userCanSee view (some user) = true ∧
    ∀ visibility, view.visibility = some visibility →
      ∃ visible, visibility table user = .ok visible ∧
        env.objects.pk obj ∈ visible.map env.objects.pk

/-- The hit that a view makes of a row. -/
def HitOf (view : IndexedView ω) (variant : Str) (obj : ω) (h : SearchHit ω) : Prop :=
  ∃ rank snippet, makeHit env view obj rank snippet variant = .ok h

/-- The rows a tool hands to the callback. -/
def Model.toolRows (model : Model ω) : List ω :=
  match model.objects with
  | .error _ => []
  | .ok rows => rows

/-- Whatever is asked, each row that is shown to the user is one the user may see. -/
structure ShowsPermitted (registry : Registry ω) (user : User) : Prop where
  searchAll : ∀ query limit, ∀ h ∈ searchAll env registry query limit (some user),
    h ∈ helpHits env query limit ∨
      ∃ view ∈ registry.views, ∃ hits,
        backendQuery env view query limit defaultVariant = .ok hits ∧
          ∃ obj ∈ view.model.rows, HitOf env view defaultVariant obj h ∧
            Permitted env view user (hitRows env view.model.rows hits) obj
  tools : ∀ view variant args reply, handler env view variant args (some user) = .ok reply →
    ∀ h ∈ reply.hits, ∃ hits,
      backendQuery env view (strip (args.query.getD [])) (args.limitOr 10) variant = .ok hits ∧
        ∃ obj ∈ view.model.rows, HitOf env view variant obj h ∧
          Permitted env view user (hitRows env view.model.toolRows hits) obj
  previews : ∀ s ∈ getIndexedSources env registry (some user), ∀ p ∈ s.previews,
    ∃ view ∈ registry.views, view.model.label = s.modelLabel ∧
      ∃ obj ∈ view.model.rows, preview env view obj = .ok p ∧
        Permitted env view user view.model.rows obj
  words : ∀ s ∈ getIndexedSources env registry (some user), s.kind = .model →
    ∀ word ∈ s.examples, ∃ p ∈ s.previews, (splitSpaces p.display).head? = some word

/-- The gate looks at a row's key only. -/
theorem Permitted.congr {view : IndexedView ω} {user : User} {table : List ω} {obj obj' : ω}
    (h : Permitted env view user table obj) (hpk : env.objects.pk obj' = env.objects.pk obj) :
    Permitted env view user table obj' := by
  unfold Permitted at h ⊢
  rw [hpk]
  exact h

/-! ## Hits -/

section Hits

variable {env} {view : IndexedView ω} {user : User} {query variant : Str} {limit : ℤ}
  {hits : List (SearchHit ω)} {h : SearchHit ω}

theorem makeHit_objectId {obj : ω} {rank : ℚ} {snippet : Str}
    (hhit : makeHit env view obj rank snippet variant = .ok h) :
    h.objectId = env.objects.pk obj := by
  unfold makeHit at hhit
  simp only [bind, Except.bind] at hhit
  split at hhit
  · cases hhit
  · split at hhit
    · cases hhit
    · cases hhit
      rfl

theorem makeHit_modelLabel {obj : ω} {rank : ℚ} {snippet : Str}
    (hhit : makeHit env view obj rank snippet variant = .ok h) :
    h.modelLabel = view.model.label := by
  unfold makeHit at hhit
  simp only [bind, Except.bind] at hhit
  split at hhit
  · cases hhit
  · split at hhit
    · cases hhit
    · cases hhit
      rfl

theorem hitsOf_spec {os : List (ω × ℚ)} (hos : hitsOf env view query variant os = .ok hits) :
    ∀ h ∈ hits, ∃ o ∈ os, HitOf env view variant o.1 h := by
  induction os generalizing hits with
  | nil =>
    cases hos
    simp
  | cons o os ih =>
    obtain ⟨obj, rank⟩ := o
    unfold hitsOf at hos
    simp only [bind, Except.bind] at hos
    cases hsnippet : env.snippet view obj query with
    | error e => simp [hsnippet] at hos
    | ok snippet =>
      cases hhit : makeHit env view obj rank snippet variant with
      | error e => simp [hsnippet, hhit] at hos
      | ok hit =>
        cases hrest : hitsOf env view query variant os with
        | error e => simp [hsnippet, hhit, hrest] at hos
        | ok rest =>
          simp only [hsnippet, hhit, hrest] at hos
          cases hos
          intro h hh
          rcases List.mem_cons.mp hh with rfl | hh
          · exact ⟨_, .head _, rank, snippet, hhit⟩
          · obtain ⟨o, ho, hof⟩ := ih hrest h hh
            exact ⟨o, .tail _ ho, hof⟩

/-- A backend's hits stand for rows of the view's model. -/
theorem backendQuery_spec (hquery : backendQuery env view query limit variant = .ok hits) :
    ∀ h ∈ hits, ∃ obj ∈ view.model.rows, HitOf env view variant obj h := by
  intro h hh
  unfold backendQuery at hquery
  simp only [bind, Except.bind] at hquery
  cases hfound : env.found view query limit with
  | error e => simp [hfound] at hquery
  | ok os =>
    rw [hfound] at hquery
    obtain ⟨o, ho, hof⟩ := hitsOf_spec hquery h hh
    exact ⟨o.1, env.found_rows view query limit os hfound o ho, hof⟩

/-- What passes the callback was among the hits, and the callback returned its row. -/
theorem mem_visibleHits {visibility : List ω → User → Except PyExc (List ω)}
    {table : Except PyExc (List ω)} (hh : h ∈ visibleHits env visibility table user hits) :
    h ∈ hits ∧ ∃ rows, table = .ok rows ∧
      ∃ visible, visibility (hitRows env rows hits) user = .ok visible ∧
        h.objectId ∈ visible.map env.objects.pk := by
  unfold visibleHits at hh
  cases table with
  | error e => simp at hh
  | ok rows =>
    cases hvisible : visibility (hitRows env rows hits) user with
    | error e => simp [hvisible] at hh
    | ok visible =>
      simp only [hvisible] at hh
      obtain ⟨hmem, hpk⟩ := List.mem_filter.mp hh
      exact ⟨hmem, rows, rfl, visible, hvisible, of_decide_eq_true hpk⟩

/-- The row gate lets through hits whose rows the callback returned, if there is one. -/
theorem mem_rowGate {table : Except PyExc (List ω)} (hstaff : user.isStaff = false)
    (hh : h ∈ rowGate env view table (some user) hits) :
    h ∈ hits ∧ ∀ visibility, view.visibility = some visibility →
      ∃ rows, table = .ok rows ∧
        ∃ visible, visibility (hitRows env rows hits) user = .ok visible ∧
          h.objectId ∈ visible.map env.objects.pk := by
  unfold rowGate at hh
  cases hvisibility : view.visibility with
  | none =>
    simp only [hvisibility] at hh
    refine ⟨hh, fun visibility heq => ?_⟩
    cases heq
  | some visibility =>
    simp only [hvisibility, hstaff, and_true] at hh
    have hgate : h ∈ visibleHits env visibility table user hits := by
      by_cases hnil : hits = []
      · subst hnil
        simp at hh
      · simpa [hnil] using hh
    obtain ⟨hmem, hrows⟩ := mem_visibleHits hgate
    refine ⟨hmem, fun visibility' heq => ?_⟩
    cases heq
    exact hrows

/-- Both gates, for the hits of one view. -/
theorem permitted_of_rowGate {table : Except PyExc (List ω)} {rows : List ω}
    (hquery : backendQuery env view query limit variant = .ok hits)
    (hsee : userCanSee view (some user) = true) (hstaff : user.isStaff = false)
    (htable : ∀ rows', table = .ok rows' → rows' = rows)
    (hh : h ∈ rowGate env view table (some user) hits) :
    ∃ obj ∈ view.model.rows, HitOf env view variant obj h ∧
      Permitted env view user (hitRows env rows hits) obj := by
  obtain ⟨hmem, hgate⟩ := mem_rowGate hstaff hh
  obtain ⟨obj, hobj, rank, snippet, hhit⟩ := backendQuery_spec hquery h hmem
  refine ⟨obj, hobj, ⟨rank, snippet, hhit⟩, hsee, fun visibility hvisibility => ?_⟩
  obtain ⟨rows', htable', visible, hvisible, hshown⟩ := hgate visibility hvisibility
  rw [← htable rows' htable', ← makeHit_objectId hhit]
  exact ⟨visible, hvisible, hshown⟩

end Hits

/-! ## The searches -/

/-- What `search_all` shows of a view. -/
theorem searchView_permitted {view : IndexedView ω} {user : User} {query : Str} {limit : ℤ}
    {h : SearchHit ω} (hstaff : user.isStaff = false)
    (hh : h ∈ searchView env query limit (some user) view) :
    ∃ hits, backendQuery env view query limit defaultVariant = .ok hits ∧
      ∃ obj ∈ view.model.rows, HitOf env view defaultVariant obj h ∧
        Permitted env view user (hitRows env view.model.rows hits) obj := by
  unfold searchView at hh
  split at hh
  case isFalse => simp at hh
  case isTrue hsee =>
    cases hquery : backendQuery env view query limit defaultVariant with
    | error e => simp [hquery] at hh
    | ok hits =>
      rw [hquery] at hh
      refine ⟨hits, rfl, permitted_of_rowGate hquery hsee hstaff (fun rows' heq => ?_) hh⟩
      cases heq
      rfl

theorem searchAll_permitted {registry : Registry ω} {user : User} {query : Str} {limit : ℤ}
    {h : SearchHit ω} (hstaff : user.isStaff = false)
    (hh : h ∈ searchAll env registry query limit (some user)) :
    h ∈ helpHits env query limit ∨
      ∃ view ∈ registry.views, ∃ hits,
        backendQuery env view query limit defaultVariant = .ok hits ∧
          ∃ obj ∈ view.model.rows, HitOf env view defaultVariant obj h ∧
            Permitted env view user (hitRows env view.model.rows hits) obj := by
  unfold searchAll at hh
  rw [List.mem_insertionSort, List.mem_append] at hh
  rcases hh with hh | hh
  · obtain ⟨view, hview, hh⟩ := List.mem_flatMap.mp hh
    exact .inr ⟨view, hview, searchView_permitted env hstaff hh⟩
  · exact .inl hh

theorem handler_permitted {view : IndexedView ω} {user : User} {variant : Str} {args : Args}
    {reply : Reply ω} {h : SearchHit ω} (hstaff : user.isStaff = false)
    (hreply : handler env view variant args (some user) = .ok reply) (hh : h ∈ reply.hits) :
    ∃ hits,
      backendQuery env view (strip (args.query.getD [])) (args.limitOr 10) variant = .ok hits ∧
        ∃ obj ∈ view.model.rows, HitOf env view variant obj h ∧
          Permitted env view user (hitRows env view.model.toolRows hits) obj := by
  unfold handler at hreply
  dsimp only at hreply
  split at hreply
  · cases hreply
    simp [Reply.hits] at hh
  · split at hreply
    case isFalse =>
      cases hreply
      simp [Reply.hits] at hh
    case isTrue hsee =>
      simp only [bind, Except.bind] at hreply
      cases hquery : backendQuery env view (strip (args.query.getD [])) (args.limitOr 10) variant with
      | error e => simp [hquery] at hreply
      | ok hits =>
        rw [hquery] at hreply
        cases hreply
        refine ⟨hits, rfl, permitted_of_rowGate hquery hsee hstaff (fun rows' heq => ?_) hh⟩
        simp [Model.toolRows, heq]

/-! ## The indexed sources -/

/-- A row whose preview can be made. -/
def printable (view : IndexedView ω) (obj : ω) : Bool :=
  match preview env view obj with
  | .error _ => false
  | .ok _ => true

/-- The rows of a view that stand in its previews: the newest five, up to the first that
cannot be printed. -/
def previewed (view : IndexedView ω) : List ω :=
  (recent env view).takeWhile (printable env view)

theorem preview_pk {view : IndexedView ω} {obj : ω} {p : Preview}
    (h : preview env view obj = .ok p) : p.pk = env.objects.pk obj := by
  unfold preview at h
  cases htext : previewText env view obj with
  | error e => simp [htext, bind, Except.bind] at h
  | ok text =>
    simp only [htext, bind, Except.bind] at h
    cases h
    rfl

theorem mem_previews {view : IndexedView ω} {os : List ω} {p : Preview} :
    p ∈ (previews env view os).1 ↔
      ∃ obj ∈ os.takeWhile (printable env view), preview env view obj = .ok p := by
  induction os with
  | nil => simp [previews]
  | cons obj os ih =>
    unfold previews
    cases hp : preview env view obj with
    | error e => simp [printable, hp]
    | ok p₀ => simp [printable, hp, ih, eq_comm]

theorem mem_rows_of_previewed {view : IndexedView ω} {obj : ω} (h : obj ∈ previewed env view) :
    obj ∈ view.model.rows := by
  have hrecent : obj ∈ recent env view := List.takeWhile_subset _ h
  exact (List.mem_insertionSort _).mp (List.mem_of_mem_take hrecent)

theorem sourceOf_previews (view : IndexedView ω) (n : ℕ) (hcount : view.model.rowCount = .ok n) :
    (sourceOf env view).previews = (previews env view (recent env view)).1 := by
  simp [sourceOf, hcount]

/-- The previews of a view's entry. -/
theorem mem_sourceOf {view : IndexedView ω} {p : Preview}
    (h : p ∈ (sourceOf env view).previews) :
    (∃ n, view.model.rowCount = .ok n) ∧
      ∃ obj ∈ previewed env view, preview env view obj = .ok p := by
  cases hcount : view.model.rowCount with
  | error e => simp [sourceOf, hcount] at h
  | ok n =>
    rw [sourceOf_previews env view n hcount] at h
    exact ⟨⟨n, rfl⟩, (mem_previews env).mp h⟩

theorem exampleWords_spec {ps : List Preview} {word : Str} (h : word ∈ exampleWords ps) :
    ∃ p ∈ ps, (splitSpaces p.display).head? = some word := by
  induction ps with
  | nil => simp [exampleWords] at h
  | cons p ps ih =>
    have hlater : word ∈ exampleWords ps →
        ∃ p' ∈ p :: ps, (splitSpaces p'.display).head? = some word := by
      intro h
      obtain ⟨p', hp', hword⟩ := ih h
      exact ⟨p', .tail _ hp', hword⟩
    unfold exampleWords at h
    split at h
    · exact hlater h
    · cases hwords : splitSpaces p.display with
      | nil => simp [hwords] at h
      | cons w ws =>
        simp only [hwords] at h
        split at h
        · rcases List.mem_cons.mp h with rfl | h
          · exact ⟨p, .head _, by simp [hwords]⟩
          · exact hlater h
        · exact hlater h

/-- The example words of a view's entry are taken from its previews. -/
theorem sourceOf_words {view : IndexedView ω} {word : Str}
    (h : word ∈ (sourceOf env view).examples) :
    ∃ p ∈ (sourceOf env view).previews, (splitSpaces p.display).head? = some word := by
  cases hcount : view.model.rowCount with
  | error e => simp [sourceOf, hcount] at h
  | ok n =>
    rw [sourceOf_previews env view n hcount]
    simp only [sourceOf, hcount] at h
    split at h
    · obtain ⟨p, hp, hword⟩ := exampleWords_spec h
      exact ⟨p, List.mem_of_mem_take hp, hword⟩
    · simp at h

/-- The entries of a user: one for each view that admits the user, and the help docs, which
have no rows. -/
theorem mem_getIndexedSources {registry : Registry ω} {user : Option User} {s : Source} :
    s ∈ getIndexedSources env registry user ↔
      (∃ view ∈ registry.views, userCanSee view user = true ∧ s = sourceOf env view) ∨
        s ∈ helpSources env := by
  simp only [getIndexedSources, List.mem_append, List.mem_map, List.mem_filter]
  constructor
  · rintro (⟨view, ⟨hview, hsee⟩, rfl⟩ | hhelp)
    · exact .inl ⟨view, hview, hsee, rfl⟩
    · exact .inr hhelp
  · rintro (⟨view, hview, hsee, rfl⟩ | hhelp)
    · exact .inl ⟨view, ⟨hview, hsee⟩, rfl⟩
    · exact .inr hhelp

theorem helpSources_spec {s : Source} (h : s ∈ helpSources env) :
    s.kind = .help ∧ s.previews = [] := by
  unfold helpSources at h
  cases hcount : env.helpCount with
  | error e => simp [hcount] at h
  | ok n =>
    simp only [hcount] at h
    split at h
    · rw [List.mem_singleton.mp h]
      exact ⟨rfl, rfl⟩
    · simp at h

/-- Where a view scopes its rows, the rows in its previews are among those that its callback
returns for the user. -/
def PreviewsScoped (registry : Registry ω) (user : User) : Prop :=
  ∀ view ∈ registry.views, userCanSee view (some user) = true →
    ∀ visibility, view.visibility = some visibility → (∃ n, view.model.rowCount = .ok n) →
      ∀ obj ∈ previewed env view,
        ∃ visible, visibility view.model.rows user = .ok visible ∧
          env.objects.pk obj ∈ visible.map env.objects.pk

theorem previews_permitted {registry : Registry ω} {user : User}
    (hscoped : PreviewsScoped env registry user) {s : Source}
    (hs : s ∈ getIndexedSources env registry (some user)) {p : Preview} (hp : p ∈ s.previews) :
    ∃ view ∈ registry.views, view.model.label = s.modelLabel ∧
      ∃ obj ∈ view.model.rows, preview env view obj = .ok p ∧
        Permitted env view user view.model.rows obj := by
  rcases (mem_getIndexedSources env).mp hs with ⟨view, hview, hsee, rfl⟩ | hhelp
  · obtain ⟨hcount, obj, hobj, hpreview⟩ := mem_sourceOf env hp
    refine ⟨view, hview, rfl, obj, mem_rows_of_previewed env hobj, hpreview, hsee, ?_⟩
    intro visibility hvisibility
    exact hscoped view hview hsee visibility hvisibility hcount obj hobj
  · rw [(helpSources_spec env hhelp).2] at hp
    simp at hp

/-- Labels tell the views of a registry apart. -/
theorem Registry.view_of_label (registry : Registry ω) {v v' : IndexedView ω}
    (hv : v ∈ registry.views) (hv' : v' ∈ registry.views) (h : v.model.label = v'.model.label) :
    v = v' :=
  List.inj_on_of_nodup_map registry.labels hv hv' h

theorem previewsScoped_of_previews {registry : Registry ω} {user : User}
    (h : ∀ s ∈ getIndexedSources env registry (some user), ∀ p ∈ s.previews,
      ∃ view ∈ registry.views, view.model.label = s.modelLabel ∧
        ∃ obj ∈ view.model.rows, preview env view obj = .ok p ∧
          Permitted env view user view.model.rows obj) :
    PreviewsScoped env registry user := by
  intro view hview hsee visibility hvisibility hcount obj hobj
  obtain ⟨n, hcount⟩ := hcount
  have hprintable : printable env view obj = true := List.mem_takeWhile_imp hobj
  cases hpreview : preview env view obj with
  | error e => simp [printable, hpreview] at hprintable
  | ok p =>
    have hp : p ∈ (sourceOf env view).previews := by
      rw [sourceOf_previews env view n hcount]
      exact (mem_previews env).mpr ⟨obj, hobj, hpreview⟩
    have hs : sourceOf env view ∈ getIndexedSources env registry (some user) :=
      (mem_getIndexedSources env).mpr (.inl ⟨view, hview, hsee, rfl⟩)
    obtain ⟨view', hview', hlabel, obj', -, hpreview', hpermitted⟩ := h _ hs p hp
    have hsame : view' = view := registry.view_of_label hview' hview hlabel
    subst hsame
    have hpk : env.objects.pk obj = env.objects.pk obj' :=
      (preview_pk env hpreview).symm.trans (preview_pk env hpreview')
    exact (hpermitted.congr env hpk).2 visibility hvisibility

/-- Search shows a user only rows the user may see, if and only if the rows in the previews of
the indexed sources are. -/
theorem showsPermitted_iff (registry : Registry ω) (user : User) (hstaff : user.isStaff = false) :
    ShowsPermitted env registry user ↔ PreviewsScoped env registry user := by
  constructor
  · intro h
    exact previewsScoped_of_previews env h.previews
  · intro hscoped
    refine ⟨fun query limit h hh => searchAll_permitted env hstaff hh,
      fun view variant args reply hreply h hh => handler_permitted env hstaff hreply hh,
      fun s hs p hp => previews_permitted env hscoped hs hp, fun s hs hkind word hword => ?_⟩
    rcases (mem_getIndexedSources env).mp hs with ⟨view, -, -, rfl⟩ | hhelp
    · exact sourceOf_words env hword
    · rw [(helpSources_spec env hhelp).1] at hkind
      cases hkind

/-! ## Registration fails closed -/

section Registration

variable {cls : ViewClass ω} {classes : List (ViewClass ω)} {view : IndexedView ω}

/-- The label under which a class is registered, unless it is skipped. -/
def ViewClass.label (cls : ViewClass ω) : Option Str :=
  if cls.searchFields = [] then none else cls.model.map Model.label

/-- The class that speaks for a label: the last one registered under it. -/
def speaksFor (label : Str) : List (ViewClass ω) → Option (ViewClass ω)
  | [] => none
  | cls :: classes =>
      (speaksFor label classes).or (if cls.label = some label then some cls else none)

/-- The class has opened its model to the user. -/
def ViewClass.Opens (cls : ViewClass ω) (user : User) : Prop :=
  cls.searchAccess = some .anonymous ∨
    cls.searchAccess = some .authenticated ∧ user.isAuthenticated = true

/-- What a user who is no staff is shown comes from models that have been opened to the user, by
the last class that speaks for them. -/
structure FailsClosed (classes : List (ViewClass ω)) (user : User) : Prop where
  searchAll : ∀ query limit, ∀ h ∈ searchAll env (registerAll classes) query limit (some user),
    h ∈ helpHits env query limit ∨
      ∃ cls, speaksFor h.modelLabel classes = some cls ∧ cls.Opens user
  tools : ∀ view ∈ (registerAll classes).views, ∀ variant args reply,
    handler env view variant args (some user) = .ok reply → ∀ h ∈ reply.hits,
      ∃ cls, speaksFor h.modelLabel classes = some cls ∧ cls.Opens user
  sources : ∀ s ∈ getIndexedSources env (registerAll classes) (some user), s.kind = .model →
    ∃ cls, speaksFor s.modelLabel classes = some cls ∧ cls.Opens user

theorem speaksFor_concat (label : Str) (classes : List (ViewClass ω)) (cls : ViewClass ω) :
    speaksFor label (classes ++ [cls]) =
      if cls.label = some label then some cls else speaksFor label classes := by
  induction classes with
  | nil => simp [speaksFor]
  | cons c classes ih =>
    rw [List.cons_append, speaksFor, ih, speaksFor]
    split <;> simp

theorem self_mem_assign (view : IndexedView ω) (vs : List (IndexedView ω)) :
    view ∈ assign view vs := by
  induction vs with
  | nil => exact .head _
  | cons v vs ih =>
    unfold assign
    split
    · exact .head _
    · exact .tail _ ih

theorem mem_assign_or {v : IndexedView ω} {vs : List (IndexedView ω)}
    (hlabels : (vs.map (·.model.label)).Nodup) (h : v ∈ assign view vs) :
    v = view ∨ v ∈ vs ∧ view.model.label ≠ v.model.label := by
  by_cases hsame : v.model.label = view.model.label
  · have hnodup := assign_labels view hlabels
    exact .inl (List.inj_on_of_nodup_map hnodup h (self_mem_assign view vs) hsame)
  · rcases mem_assign h with rfl | hold
    · exact .inl rfl
    · exact .inr ⟨hold, Ne.symm hsame⟩

/-- A view is what its class declares, or it was there and the class goes by another label. -/
theorem mem_register {registry : Registry ω} (h : view ∈ (register cls registry).views) :
    (cls.label = some view.model.label ∧ view.access =
        if (cls.searchAccess.getD .staff).isValid then cls.searchAccess.getD .staff else .staff) ∨
      view ∈ registry.views ∧ cls.label ≠ some view.model.label := by
  cases hmodel : cls.model with
  | none => exact .inr (by simpa [register, ViewClass.label, hmodel] using h)
  | some model =>
    by_cases hfields : cls.searchFields = []
    · exact .inr (by simpa [register, ViewClass.label, hmodel, hfields] using h)
    · have hlabel : cls.label = some model.label := by simp [ViewClass.label, hmodel, hfields]
      simp only [register, hmodel, hfields, if_false] at h
      rcases mem_assign_or registry.labels h with rfl | ⟨hold, hne⟩
      · exact .inl ⟨hlabel, rfl⟩
      · exact .inr ⟨hold, fun heq => hne (Option.some.inj (hlabel.symm.trans heq))⟩

theorem mem_registerAll (h : view ∈ (registerAll classes).views) :
    ∃ cls, speaksFor view.model.label classes = some cls ∧ view.access =
      if (cls.searchAccess.getD .staff).isValid then cls.searchAccess.getD .staff else .staff := by
  induction classes using List.reverseRecOn with
  | nil => cases h
  | append_singleton classes cls ih =>
    rw [registerAll, List.foldl_append] at h
    rw [speaksFor_concat]
    rcases mem_register h with ⟨hlabel, haccess⟩ | ⟨hold, hlabel⟩
    · exact ⟨cls, if_pos hlabel, haccess⟩
    · rw [if_neg hlabel]
      exact ih hold

/-- A level that is missing or unknown admits staff only. -/
theorem opens_of_userCanSee {user : User} (hstaff : user.isStaff = false)
    (hview : view ∈ (registerAll classes).views) (hsee : userCanSee view (some user) = true) :
    ∃ cls, speaksFor view.model.label classes = some cls ∧ cls.Opens user := by
  obtain ⟨cls, hspeaks, haccess⟩ := mem_registerAll hview
  refine ⟨cls, hspeaks, ?_⟩
  simp only [userCanSee, hstaff, haccess] at hsee
  cases hdeclared : cls.searchAccess with
  | none => simp [hdeclared, SearchAccess.isValid] at hsee
  | some access =>
    cases access with
    | anonymous => exact .inl hdeclared
    | authenticated =>
      refine .inr ⟨hdeclared, ?_⟩
      simpa [hdeclared, SearchAccess.isValid] using hsee
    | staff | unknown => simp [hdeclared, SearchAccess.isValid] at hsee

end Registration

/-- **What is not opted in stays gated**, in whatever order the classes are registered. -/
theorem registration_fails_closed (classes : List (ViewClass ω)) (user : User)
    (hstaff : user.isStaff = false) : FailsClosed env classes user where
  searchAll query limit h hh := by
    rcases searchAll_permitted env hstaff hh with
      hhelp | ⟨view, hview, _, -, _, -, ⟨rank, snippet, hhit⟩, hpermitted⟩
    · exact .inl hhelp
    · rw [makeHit_modelLabel hhit]
      exact .inr (opens_of_userCanSee hstaff hview hpermitted.1)
  tools view hview variant args reply hreply h hh := by
    obtain ⟨_, -, _, -, ⟨rank, snippet, hhit⟩, hpermitted⟩ :=
      handler_permitted env hstaff hreply hh
    rw [makeHit_modelLabel hhit]
    exact opens_of_userCanSee hstaff hview hpermitted.1
  sources s hs hkind := by
    rcases (mem_getIndexedSources env).mp hs with ⟨view, hview, hsee, rfl⟩ | hhelp
    · exact opens_of_userCanSee hstaff hview hsee
    · rw [(helpSources_spec env hhelp).1] at hkind
      cases hkind

/-! ## Two users' notes -/

structure Note where
  pk : ℕ
  owner : ℕ
  title : Str
  deriving DecidableEq

def noteObjects : Objects Note where
  pk := Note.pk
  getattr _ _ := .ok none
  truthy _ := true
  str note := .ok note.title
  absoluteUrl _ := none

def noteEnv : Env Note where
  objects := noteObjects
  unicode := Unicode.ascii
  reverse _ _ := none
  found view _ _ := .ok (view.model.rows.map fun note => (note, 1))
  found_rows view _ _ os h o ho := by
    cases h
    obtain ⟨note, hnote, rfl⟩ := List.mem_map.mp ho
    exact hnote
  snippet _ _ _ := .ok []
  helpArticles _ _ := .ok []
  helpCount := .ok 0

def notes : List Note :=
  [⟨1, 1, "mine".toList⟩, ⟨2, 2, "salary talks".toList⟩]

/-- `lambda qs, user: qs.filter(user=user)`. -/
def ownNotes (rows : List Note) (user : User) : Except PyExc (List Note) :=
  .ok (rows.filter fun note => decide (some note.owner = user.pk))

def noteView (rows : List Note) : IndexedView Note where
  model := ⟨"notes.Note".toList, "Note".toList, "notes".toList, rows, .ok rows, .ok rows.length⟩
  fields := ["title".toList]
  weights := []
  displayField := none
  subtitleField := none
  access := .authenticated
  visibility := some ownNotes
  visibilityName := none
  transformHit := none
  urlBase := none
  urlNamespace := none
  mcpToolName := none

def noteRegistry (rows : List Note) : Registry Note := ⟨[noteView rows], by simp⟩

def noteOwner : User := ⟨some 1, false, true⟩

def noteClass (access : Option SearchAccess) : ViewClass Note where
  model := some (noteView notes).model
  searchFields := ["title".toList]
  searchAccess := access
  view := noteView notes

/-- The notes are closed again by a later class that declares nothing. -/
theorem notes_closed_again :
    FailsClosed noteEnv [noteClass (some .authenticated), noteClass none] noteOwner :=
  registration_fails_closed noteEnv [noteClass (some .authenticated), noteClass none] noteOwner rfl

/-- A user is shown another user's note among the previews. -/
theorem preview_of_hidden_note :
    ¬∀ (ω : Type) (env : Env ω) (registry : Registry ω) (user : User), user.isStaff = false →
      ShowsPermitted env registry user := by
  intro h
  have hnotes := h Note noteEnv (noteRegistry notes) noteOwner rfl
  have hs : sourceOf noteEnv (noteView notes) ∈
      getIndexedSources noteEnv (noteRegistry notes) (some noteOwner) :=
    (mem_getIndexedSources noteEnv).mpr (.inl ⟨noteView notes, .head _, rfl, rfl⟩)
  have hp : (⟨"salary talks".toList, none, 2⟩ : Preview) ∈
      (sourceOf noteEnv (noteView notes)).previews := by decide +kernel
  obtain ⟨view, hview, -, obj, -, hpreview, hpermitted⟩ := hnotes.previews _ hs _ hp
  rw [List.mem_singleton.mp hview] at hpreview hpermitted
  obtain ⟨visible, hvisible, hpk⟩ := hpermitted.2 ownNotes rfl
  have hobj : noteEnv.objects.pk obj = 2 := (preview_pk noteEnv hpreview).symm
  rw [hobj] at hpk
  cases hvisible
  exact absurd hpk (by decide +kernel)

/-- Where all notes are the user's own, the previews show nothing else. -/
theorem own_notes_shown : ShowsPermitted noteEnv (noteRegistry (notes.take 1)) noteOwner := by
  refine (showsPermitted_iff noteEnv (noteRegistry (notes.take 1)) noteOwner rfl).mpr ?_
  intro view hview _ visibility hvisibility _ obj hobj
  rw [List.mem_singleton.mp hview] at hvisibility hobj ⊢
  have hmem : obj ∈ notes.take 1 := mem_rows_of_previewed noteEnv hobj
  cases hvisibility
  rw [List.mem_singleton.mp hmem]
  exact ⟨notes.take 1, rfl, by decide +kernel⟩

end CwStation.Search
