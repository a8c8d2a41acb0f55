import CwStation.Verification.Documents.Imports

/-! # Pruning imports

After a pruning import the live documents of its source are those of the bundle, unless one of
them was archived before: nothing in an import takes a document out of the archive. -/

namespace CwStation.Documents

open Effects

variable {env : Env} {α : Type}

/-! ### One import -/

section Bundles

variable {w w' : World} {bundle : Bundle} {args : Import} {slug source : Str} {rb : ℕ}

/-- The key of a slug's runbook, or the one it would be given. -/
def runbookKey (db : Db) (slug : Str) : ℕ :=
  ((Table.get Runbook.slug db.runbooks slug).map Runbook.id).getD db.nextRunbook

/-- The live documents of the source are those of the bundle, as the bundle has them. -/
structure Mirrors (env : Env) (bundle : Bundle) (source : Str) (rb : ℕ) (w : World) : Prop where
  told : ∀ doc ∈ w.db.documents, doc.runbook = some rb → doc.source = source →
    doc.isArchived = false → ∃ key spec, doc.key = some key ∧
      lastSpec bundle.manifest.documents key = some spec ∧ Told env bundle.entries w spec doc
  present : ∀ spec ∈ bundle.manifest.documents, ∃ doc ∈ w.db.documents, doc.runbook = some rb ∧
    doc.key = some spec.key ∧ doc.source = source ∧ doc.isArchived = false

/-- None of the bundle's documents is archived. -/
def Unshelved (bundle : Bundle) (rb : ℕ) (w : World) : Prop :=
  ∀ doc ∈ w.db.documents, ∀ key, doc.runbook = some rb → doc.key = some key →
    key ∈ bundle.manifest.documents.map DocumentSpec.key → doc.isArchived = false

theorem ok_of_atomic {x : Py α} {a : α} (h : atomic x w = .ok a w') : x w = .ok a w' := by
  rw [atomic] at h
  cases hx : x w with
  | ok b s =>
    rw [hx] at h
    exact h
  | error e s =>
    rw [hx] at h
    cases h

theorem getOrCreateRunbook_ok {manifest : Manifest} {r : Runbook}
    (h : getOrCreateRunbook slug manifest w = .ok r w') :
    r.id = runbookKey w.db slug ∧ w'.db.documents = w.db.documents ∧ Aside w w' := by
  cases hget : Table.get Runbook.slug w.db.runbooks slug with
  | some found =>
    have hrun : getOrCreateRunbook slug manifest w = .ok found w := by
      simp only [getOrCreateRunbook, getDb, bind, EStateM.bind, get, getThe, MonadStateOf.get,
        get_eq_ok, pure, EStateM.pure, hget]
    rw [hrun] at h
    obtain ⟨rfl, rfl⟩ := EStateM.Result.ok.inj h
    exact ⟨by rw [runbookKey, hget]; rfl, rfl, Aside.refl w⟩
  | none =>
    let row (id : ℕ) : Runbook :=
      { id := id, slug := slug, name := manifest.name.getD slug,
        description := manifest.description.getD [], icon := manifest.icon.getD [] }
    have hrun : getOrCreateRunbook slug manifest w = insertRunbook row w := by
      simp only [getOrCreateRunbook, getDb, bind, EStateM.bind, get, getThe, MonadStateOf.get,
        get_eq_ok, pure, EStateM.pure, hget]
      rfl
    have hinsert : insertRunbook row w =
        (if w.db.runbooks.any fun r => r.slug = (row w.db.nextRunbook).slug then
            throw .integrityError
          else do
            modifyDb fun db =>
              { db with
                runbooks := db.runbooks ++ [row w.db.nextRunbook]
                nextRunbook := db.nextRunbook + 1 }
            return row w.db.nextRunbook : Py Runbook) w := rfl
    rw [hrun, hinsert] at h
    split at h
    · cases h
    · obtain ⟨rfl, rfl⟩ := EStateM.Result.ok.inj h
      exact ⟨by rw [runbookKey, hget]; rfl, rfl, rfl, rfl, rfl, rfl, rfl⟩

theorem importSections_documents {specs : List SectionSpec} {sections : List (Str × ℕ)}
    (h : importSections rb specs w = .ok sections w') : w'.db.documents = w.db.documents := by
  induction specs generalizing sections w with
  | nil =>
    obtain ⟨-, rfl⟩ := EStateM.Result.ok.inj h
    rfl
  | cons spec specs ih =>
    obtain ⟨sec, w₁, hfirst, h⟩ := exists_of_bind_eq_ok h
    obtain ⟨rest, w₂, hrest, h⟩ := exists_of_bind_eq_ok h
    obtain ⟨-, rfl⟩ := EStateM.Result.ok.inj h
    rw [ih hrest]
    cases hfound : w.db.sections.find? fun sec => sec.runbook = rb ∧ sec.slug = spec.slug with
    | some found =>
      have hrun : getOrCreateSection rb spec w = .ok found w := by
        simp only [getOrCreateSection, getDb, bind, EStateM.bind, get, getThe,
          MonadStateOf.get, get_eq_ok, pure, EStateM.pure, hfound]
      obtain ⟨-, rfl⟩ := EStateM.Result.ok.inj (hrun.symm.trans hfirst)
      rfl
    | none =>
      have hrun : getOrCreateSection rb spec w = insertSection (fun id =>
          { id := id, runbook := rb, name := spec.name.getD spec.slug, slug := spec.slug,
            description := spec.description.getD [], icon := spec.icon.getD [],
            order := spec.order.getD 0 }) w := by
        simp only [getOrCreateSection, getDb, bind, EStateM.bind, get, getThe,
          MonadStateOf.get, get_eq_ok, pure, EStateM.pure, hfound]
      obtain ⟨-, rfl⟩ := EStateM.Result.ok.inj (hrun.symm.trans hfirst)
      rfl

theorem pruneStale_run {seen : List Str} (hprune : args.prune = true) :
    pruneStale rb args seen w = .ok (w.db.documents.filter (isStale rb args.source seen)).length
      { w with db := archiveStale rb args.source seen w.now w.db, now := w.now + 1 } := by
  rw [pruneStale, if_pos hprune]
  rfl

/-- What a pruning import does. -/
theorem importBundle_imported {result : ImportResult} (htidy : Tidy w) (hapart : Apart w)
    (hprune : args.prune = true) (hslug : importSlug args bundle.manifest = .ok slug)
    (hrun : importBundle env bundle args w = .ok result w') :
    ∃ w₁, Imported env bundle.entries (runbookKey w.db slug) args.source
        (fun key => ∃ doc ∈ w.db.documents, doc.runbook = some (runbookKey w.db slug) ∧
          doc.key = some key ∧ doc.isArchived = true) bundle.manifest.documents w₁ ∧
      w' = { w₁ with
        db := archiveStale (runbookKey w.db slug) args.source
          (bundle.manifest.documents.map DocumentSpec.key) w₁.now w₁.db
        now := w₁.now + 1 } := by
  have hrun := ok_of_atomic hrun
  obtain ⟨s, w₀, hfirst, hrun⟩ := exists_of_bind_eq_ok hrun
  rw [hslug] at hfirst
  obtain ⟨rfl, rfl⟩ := EStateM.Result.ok.inj hfirst
  obtain ⟨r, w₁, hrunbook, hrun⟩ := exists_of_bind_eq_ok hrun
  obtain ⟨sections, w₂, hsections, hrun⟩ := exists_of_bind_eq_ok hrun
  obtain ⟨outcomes, w₃, hdocuments, hrun⟩ := exists_of_bind_eq_ok hrun
  obtain ⟨archived, w₄, hpruned, hrun⟩ := exists_of_bind_eq_ok hrun
  obtain ⟨-, rfl⟩ := EStateM.Result.ok.inj hrun
  obtain ⟨hkey, hsame₁, haside₁⟩ := getOrCreateRunbook_ok hrunbook
  have haside₂ := aside_importSections r.id bundle.manifest.sections w₁
  rw [hsections] at haside₂
  have hsame : w₂.db.documents = w.db.documents :=
    (importSections_documents hsections).trans hsame₁
  rw [pruneStale_run hprune, hkey] at hpruned
  obtain ⟨-, rfl⟩ := EStateM.Result.ok.inj hpruned
  rw [hkey] at hdocuments
  refine ⟨w₃, ?_, rfl⟩
  rw [← List.nil_append bundle.manifest.documents]
  refine importDocuments_imported ?_ hdocuments
  refine
    { tidy := ((tidies_stable env).beside _ _ (haside₁.trans haside₂)).tidy htidy
      apart := hapart.of_documents hsame
      shelved := ?_
      archived := ?_
      told := fun key spec h => by cases h }
  · rintro key ⟨doc, hdoc, hrb, hk, -⟩
    exact ⟨doc, hsame ▸ hdoc, hrb, hk⟩
  · intro doc hdoc key hrb hk
    rw [hsame] at hdoc
    constructor
    · intro harchived
      exact ⟨doc, hdoc, hrb, hk, harchived⟩
    · rintro ⟨d, hd, hrb', hk', harchived⟩
      have hid := hapart doc hdoc d hd _ _ hrb hk hrb' hk'
      rw [htidy.heads.documents.eq_of_key hdoc hd hid]
      exact harchived

/-- A document that the prune leaves alone, before it and after it. -/
theorem mem_archiveStale_live {seen : List Str} {now : ℤ} {db : Db} {doc : Document}
    (hlive : doc.isArchived = false) :
    doc ∈ (archiveStale rb source seen now db).documents ↔
      doc ∈ db.documents ∧ isStale rb source seen doc = false := by
  constructor
  · intro hdoc
    obtain ⟨d, hd, heq⟩ := List.mem_map.mp hdoc
    cases hstale : isStale rb source seen d with
    | true =>
      rw [hstale, if_pos rfl] at heq
      rw [← heq] at hlive
      cases hlive
    | false =>
      rw [hstale, if_neg Bool.false_ne_true] at heq
      exact heq ▸ ⟨hd, hstale⟩
  · rintro ⟨hdoc, hstale⟩
    exact List.mem_map.mpr ⟨doc, hdoc, by rw [hstale, if_neg Bool.false_ne_true]⟩

theorem Told.archiveStale {entries : List (Str × Blob)} {spec : DocumentSpec} {doc : Document}
    {seen : List Str} {now now' : ℤ} (h : Told env entries w spec doc) :
    Told env entries
      { w with db := archiveStale rb source seen now w.db, now := now' } spec doc :=
  ⟨h.title, h.content⟩

theorem importBundle_mirrors_iff {result : ImportResult} (htidy : Tidy w) (hapart : Apart w)
    (hprune : args.prune = true) (hslug : importSlug args bundle.manifest = .ok slug)
    (hrun : importBundle env bundle args w = .ok result w') :
    Mirrors env bundle args.source (runbookKey w.db slug) w' ↔
      Unshelved bundle (runbookKey w.db slug) w := by
  obtain ⟨w₁, himported, rfl⟩ := importBundle_imported htidy hapart hprune hslug hrun
  constructor
  · intro h doc hdoc key hrb hkey hmem
    by_contra harchived
    obtain ⟨spec, hspec, rfl⟩ := List.mem_map.mp hmem
    obtain ⟨d, hd, hrb', hkey', -, hlive⟩ := h.present spec hspec
    have hd₁ := ((mem_archiveStale_live hlive).mp hd).1
    have hshelf := (himported.archived d hd₁ spec.key hrb' hkey').mpr
      ⟨doc, hdoc, hrb, hkey, Bool.not_eq_false _ ▸ harchived⟩
    rw [hlive] at hshelf
    cases hshelf
  · intro h
    have hlive : ∀ doc ∈ w₁.db.documents, ∀ spec ∈ bundle.manifest.documents,
        doc.runbook = some (runbookKey w.db slug) → doc.key = some spec.key →
          doc.isArchived = false := by
      intro doc hdoc spec hspec hrb hkey
      by_contra harchived
      obtain ⟨d, hd, hrb', hkey', hshelf⟩ :=
        (himported.archived doc hdoc spec.key hrb hkey).mp (Bool.not_eq_false _ ▸ harchived)
      rw [h d hd spec.key hrb' hkey' (List.mem_map_of_mem hspec)] at hshelf
      cases hshelf
    constructor
    · intro doc hdoc hrb hsource hdlive
      obtain ⟨hdoc₁, hstale⟩ := (mem_archiveStale_live hdlive).mp hdoc
      cases hkey : doc.key with
      | none => simp [isStale, hrb, hsource, hdlive, hkey] at hstale
      | some key =>
        have hmem : key ∈ bundle.manifest.documents.map DocumentSpec.key := by
          by_contra hnot
          simp [isStale, hrb, hsource, hdlive, hkey] at hstale
          obtain ⟨spec, hspec, hk⟩ := hstale
          exact hnot (List.mem_map.mpr ⟨spec, hspec, hk⟩)
        obtain ⟨spec, hspec⟩ := lastSpec_isSome hmem
        obtain ⟨d, hd, hrow, htold⟩ := himported.told key spec hspec
        have hkey' := hrow.key.trans (congrArg some (mem_of_lastSpec hspec).2)
        have hid := himported.apart d hd doc hdoc₁ _ _ hrow.runbook hkey' hrb hkey
        rw [himported.tidy.heads.documents.eq_of_key hd hdoc₁ hid] at htold
        exact ⟨key, spec, rfl, hspec, htold.archiveStale⟩
    · intro spec hspec
      have hmem := List.mem_map_of_mem (f := DocumentSpec.key) hspec
      obtain ⟨s, hs⟩ := lastSpec_isSome hmem
      obtain ⟨doc, hdoc, hrow, -⟩ := himported.told spec.key s hs
      have hkey := hrow.key.trans (congrArg some (mem_of_lastSpec hs).2)
      have hdlive := hlive doc hdoc spec hspec hrow.runbook hkey
      refine ⟨doc, (mem_archiveStale_live hdlive).mpr ⟨hdoc, ?_⟩, hrow.runbook, hkey, hrow.source,
        hdlive⟩
      simp only [isStale, hkey]
      rw [decide_eq_false (not_not.mpr hmem), Bool.and_false]

end Bundles

/-! ### Sequences of imports -/

/-- A pruning import into the runbook of a slug. -/
def Prunes (slug source : Str) (call : Bundle × Import) : Prop :=
  call.2.prune = true ∧ call.2.source = source ∧ importSlug call.2 call.1.manifest = .ok slug

def imports (calls : List (Bundle × Import)) : List Op :=
  calls.map fun call => .importBundle call.1 call.2

/-- After each pruning import of a sequence the live documents of the source are those of its
bundle exactly when none of these was archived. -/
theorem pruning_import_mirrors_iff (env : Env) (w : World) (ops : List Op) (hsite : w.Site)
    {slug source : Str} (calls : List (Bundle × Import)) {bundle : Bundle} {args : Import}
    (hcalls : ∀ call ∈ calls ++ [(bundle, args)], Prunes slug source call)
    {result : ImportResult} {w' : World}
    (hrun : importBundle env bundle args (run env (ops ++ imports calls) w) = .ok result w') :
    Mirrors env bundle source (runbookKey (run env (ops ++ imports calls) w).db slug) w' ↔
      Unshelved bundle (runbookKey (run env (ops ++ imports calls) w).db slug)
        (run env (ops ++ imports calls) w) := by
  obtain ⟨hprune, rfl, hslug⟩ :=
    hcalls (bundle, args) (List.mem_append_right _ (List.mem_singleton.mpr rfl))
  exact importBundle_mirrors_iff (tidy_run env _ hsite) (apart_run env _ hsite) hprune hslug hrun

/-- An import of a note into an empty runbook, which then has the note. -/
theorem imported_note_mirrors : ∃ w',
    importBundle plainEnv (noteBundle "text".toList) { prune := true }
        (run plainEnv ([] ++ imports []) oneRunbook) =
      .ok { runbook := "notes".toList, created := 1, updated := 0, archived := 0 } w' ∧
    Mirrors plainEnv (noteBundle "text".toList) "app".toList
      (runbookKey (run plainEnv ([] ++ imports []) oneRunbook).db "notes".toList) w' := by
  obtain ⟨w', hrun⟩ := exists_of_outcome (a :=
      { runbook := "notes".toList, created := 1, updated := 0, archived := 0 })
    (show outcome (importBundle plainEnv (noteBundle "text".toList) { prune := true })
      (run plainEnv ([] ++ imports []) oneRunbook) = .ok _ by decide +kernel)
  refine ⟨w', hrun, (pruning_import_mirrors_iff plainEnv oneRunbook [] site_oneRunbook [] ?_
    hrun).mpr ?_⟩
  · intro call hcall
    obtain rfl := List.mem_singleton.mp hcall
    exact ⟨rfl, rfl, rfl⟩
  · intro doc hdoc
    cases hdoc

def emptyBundle : Bundle where
  manifest := { slug := some "notes".toList }

/-- A note that leaves the bundle and comes back stays in the archive. -/
theorem returning_note_archived :
    outcome (importBundle plainEnv (noteBundle "text".toList) { prune := true })
      (run plainEnv (imports [(noteBundle "text".toList, { prune := true }),
        (emptyBundle, { prune := true })]) oneRunbook) =
      .ok { runbook := "notes".toList, created := 0, updated := 0, archived := 0 } ∧
    ¬Mirrors plainEnv (noteBundle "text".toList) "app".toList 1
      (run plainEnv (imports [(noteBundle "text".toList, { prune := true }),
        (emptyBundle, { prune := true }), (noteBundle "text".toList, { prune := true })])
        oneRunbook) := by
  refine ⟨by decide +kernel, fun h => ?_⟩
  obtain ⟨doc, hdoc, -, -, -, hlive⟩ := h.present _ (List.mem_singleton.mpr rfl)
  have hall : ∀ doc ∈ (run plainEnv (imports [(noteBundle "text".toList, { prune := true }),
      (emptyBundle, { prune := true }), (noteBundle "text".toList, { prune := true })])
      oneRunbook).db.documents, doc.isArchived = true := by decide +kernel
  rw [hall doc hdoc] at hlive
  cases hlive

end CwStation.Documents
