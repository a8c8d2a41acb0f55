import CwStation.Library.Effects
import CwStation.Model.Documents

/-! # Runbook bundles

`export_bundle` and `import_bundle`. A bundle is the manifest as JSON reads it back and the
entries of the archive; the entry of a name is the last one written. -/

namespace CwStation.Documents

/-! ## The archive -/

structure SectionSpec where
  slug : Str
  name : Option Str := none
  order : Option ℤ := none
  description : Option Str := none
  icon : Option Str := none
  deriving DecidableEq, Repr

structure ImageSpec where
  ref : Str
  alt : Option Str := none
  deriving DecidableEq, Repr

structure DocumentSpec where
  key : Str
  path : Str
  title : Option Str := none
  sec : Option Str := none
  description : Option Str := none
  docType : Option Str := none
  images : List ImageSpec := []
  deriving DecidableEq, Repr

/-- `manifest.json`. -/
structure Manifest where
  slug : Option Str := none
  name : Option Str := none
  description : Option Str := none
  icon : Option Str := none
  sections : List SectionSpec := []
  documents : List DocumentSpec := []
  deriving DecidableEq, Repr

structure Bundle where
  manifest : Manifest
  entries : List (Str × Blob) := []
  deriving DecidableEq, Repr

/-- `zf.read(path)`. -/
def zipRead (entries : List (Str × Blob)) (path : Str) : Option Blob :=
  (Table.get Prod.fst entries.reverse path).map Prod.snd

/-- `posixpath.join(a, b)`. -/
def posixJoin (a b : Str) : Str :=
  if b.head? = some '/' then b
  else if a = [] ∨ a.getLast? = some '/' then a ++ b
  else a ++ '/' :: b

/-- `posixpath.dirname(path)`. -/
def posixDirname (path : Str) : Str :=
  let head := (path.reverse.dropWhile (· ≠ '/')).reverse
  if head.all (· = '/') then head else (head.reverse.dropWhile (· = '/')).reverse

/-- `posixpath.basename(path)`. -/
def posixBasename (path : Str) : Str := (path.reverse.takeWhile (· ≠ '/')).reverse

/-! ## Export -/

/-- `_doc_key`. -/
def docKey (doc : Document) : Str :=
  match doc.key with
  | none => doc.slug
  | some key => if key = [] then doc.slug else key

/-- The name an image has in the archive, from its document's folder. -/
def relRef (env : Env) (image : DocumentImage) : Str :=
  "images/".toList ++ (env.sha256 image.data).take 16 ++
    (if image.ext = [] then ".png".toList else image.ext)

/-- What the export of one document has made so far. -/
structure Exported where
  content : Str
  entries : List (Str × Blob)
  images : List ImageSpec

/-- One image of a document: exported when the text shows it. -/
def exportImage (env : Env) (dir : Str) (e : Exported) (image : DocumentImage) : Exported :=
  if serveUrl image.id <:+: e.content then
    let ref := relRef env image
    let path := posixJoin dir ref
    { content := replaceText (serveUrl image.id) ref e.content
      entries := if e.entries.any fun entry => entry.1 = path then e.entries
        else e.entries ++ [(path, image.data)]
      images := e.images ++ [{ ref := ref, alt := some image.alt }] }
  else e

def sectionSlug (db : Db) (doc : Document) : Option Str :=
  (doc.sec.bind (Table.get Section.id db.sections)).map Section.slug

/-- One document, behind the entries written before it. -/
def exportDocument (env : Env) (w : World) (entries : List (Str × Blob)) (doc : Document) :
    List (Str × Blob) × DocumentSpec :=
  let dir := (sectionSlug w.db doc).getD []
  let path := posixJoin dir (docKey doc ++ ".md".toList)
  let e := (imagesOf w.db doc.id).foldl (exportImage env dir)
    { content := w.readHead doc, entries := entries, images := [] }
  (e.entries ++ [(path, .utf8 e.content)],
    { key := docKey doc, path := path, title := some doc.title, sec := sectionSlug w.db doc,
      description := some doc.description, docType := some doc.docType, images := e.images })

def exportDocuments (env : Env) (w : World) :
    List Document → List (Str × Blob) → List (Str × Blob) × List DocumentSpec
  | [], entries => (entries, [])
  | doc :: docs, entries =>
      let (entries, spec) := exportDocument env w entries doc
      let (entries, specs) := exportDocuments env w docs entries
      (entries, spec :: specs)

/-- The documents of a runbook in the order of the export. -/
def exportOrder (env : Env) (db : Db) (docs : List Document) : List Document :=
  let place (doc : Document) : Option ℤ × Str :=
    ((doc.sec.bind (Table.get Section.id db.sections)).map Section.order, doc.title)
  docs.insertionSort fun a b => env.before (place a) (place b)

/-- `export_bundle`. -/
def exportBundle (env : Env) (w : World) (rb : Runbook) : Bundle :=
  let sections := (w.db.sections.filter fun sec => sec.runbook = rb.id).insertionSort
    fun a b => env.before (some a.order, a.name) (some b.order, b.name)
  let (entries, documents) :=
    exportDocuments env w (exportOrder env w.db (livePages w.db rb.id)) []
  { manifest :=
      { slug := some rb.slug
        name := some rb.name
        description := some rb.description
        icon := some rb.icon
        sections := sections.map fun sec =>
          { slug := sec.slug, name := some sec.name, order := some sec.order,
            description := some sec.description, icon := some sec.icon }
        documents := documents }
    entries := entries }

/-! ## Import -/

/-- The arguments of `import_bundle` beside the bundle. -/
structure Import where
  slugOverride : Option Str := none
  locked : Bool := true
  source : Str := "app".toList
  prune : Bool := false
  actor : Option Actor := none

/-- The provenance of what an import writes. -/
def Import.origin (args : Import) : Origin where
  source := args.source
  via := "import".toList
  actor := args.actor

/-- `Section.objects.get_or_create`. -/
def getOrCreateSection (rb : ℕ) (spec : SectionSpec) : Py Section := do
  match (← getDb).sections.find? fun sec => sec.runbook = rb ∧ sec.slug = spec.slug with
  | some sec => return sec
  | none => insertSection fun id =>
      { id := id, runbook := rb, name := spec.name.getD spec.slug, slug := spec.slug,
        description := spec.description.getD [], icon := spec.icon.getD [],
        order := spec.order.getD 0 }

/-- The sections of the manifest under their slugs. -/
def importSections (rb : ℕ) : List SectionSpec → Py (List (Str × ℕ))
  | [] => return []
  | spec :: specs => do
      let sec ← getOrCreateSection rb spec
      let sections ← importSections rb specs
      return (spec.slug, sec.id) :: sections

/-- An image the bundle gives a document. -/
structure Desired where
  ref : Str
  alt : Str
  blob : Blob

def readImages (entries : List (Str × Blob)) (dir : Str) : List ImageSpec → Py (List Desired)
  | [] => return []
  | spec :: specs => do
      let path := if dir = [] then spec.ref else posixJoin dir spec.ref
      match zipRead entries path with
      | none => throw (.keyError path)
      | some blob => do
          let desired ← readImages entries dir specs
          return { ref := spec.ref, alt := spec.alt.getD [], blob := blob } :: desired

/-- The images stand as the bundle wants them: the same digests and texts. -/
def sameImages (env : Env) (existing : List DocumentImage) (desired : List Desired) : Bool :=
  existing ≠ [] &&
    (existing.map fun image => (env.sha256 image.data, image.alt)).isPerm
      (desired.map fun d => (env.sha256 d.blob, d.alt))

/-- The serve URL of the image with a digest; of several the last one. -/
def urlByDigest (env : Env) (existing : List DocumentImage) (digest : Str) : Str :=
  match existing.reverse.find? fun image => env.sha256 image.data = digest with
  | some image => serveUrl image.id
  | none => []

/-- The references of a text turned into the URLs of the images that stand. -/
def reuseImages (env : Env) (existing : List DocumentImage) (desired : List Desired)
    (content : Str) : Str :=
  desired.foldl (fun content d =>
    replaceText d.ref (urlByDigest env existing (env.sha256 d.blob)) content) content

/-- New images for a document, with the references turned into their URLs. -/
def createImages (env : Env) (pk : ℕ) (actor : Option Actor) : List Desired → Str → Py Str
  | [], content => pure content
  | d :: desired, content => do
      let ext := storedExtension env.unicode (posixBasename d.ref)
      let image ← insertImage pk d.blob ext d.alt actor
      createImages env pk actor desired (replaceText d.ref (serveUrl image) content)

def deleteImages (pk : ℕ) (db : Db) : Db :=
  { db with images := db.images.filter fun image => image.document ≠ pk }

/-- The row an import leaves for a document that stands. -/
def DocumentSpec.refresh (spec : DocumentSpec) (sec : Option ℕ) (args : Import)
    (doc : Document) : Document :=
  { doc with
    sec := sec
    title := spec.title.getD doc.title
    description := spec.description.getD doc.description
    docType := spec.docType.getD doc.docType
    isGenerated := true
    source := args.source
    locked := args.locked }

/-- `doc.save()` after the fields of an import are set, when one changed. -/
def refreshDocument (env : Env) (sec : Option ℕ) (args : Import) (spec : DocumentSpec)
    (doc : Document) : Py Unit :=
  if spec.refresh sec args doc ≠ doc then do
    let now ← timezoneNow
    let update (doc : Document) : Document :=
      { (spec.refresh sec args doc).withSlug env with updatedAt := now }
    modifyDb fun db =>
      { db with documents := Table.alter Document.id doc.id update db.documents }
  else pure ()

/-- The document of a spec, made or brought up to date; the flags say whether it is new and
whether its fields changed. -/
def upsertDocument (env : Env) (rb : ℕ) (sec : Option ℕ) (args : Import) (spec : DocumentSpec) :
    Py (ℕ × Bool × Bool) := do
  match findDocument (← getDb) rb spec.key with
  | none => do
      let pk ← insertDocument env fun id now =>
        { id := id, runbook := some rb, key := some spec.key, sec := sec,
          title := spec.title.getD spec.key, description := spec.description.getD [],
          docType := spec.docType.getD [], isGenerated := true, source := args.source,
          locked := args.locked, via := "import".toList,
          createdBy := args.actor.bind Actor.id, updatedAt := now }
      return (pk, true, true)
  | some doc => do
      refreshDocument env sec args spec doc
      return (doc.id, false, spec.refresh sec args doc ≠ doc)

/-- What an import did to one document. -/
inductive Outcome
  | created
  | updated
  | unchanged
  deriving DecidableEq, Repr

/-- The images of a document brought to what the bundle gives it, and the text with their
URLs. -/
def importImages (env : Env) (pk : ℕ) (actor : Option Actor) (desired : List Desired)
    (content : Str) : Py Str := do
  let existing := imagesOf (← getDb) pk
  if sameImages env existing desired then
    return reuseImages env existing desired content
  else do
    modifyDb (deleteImages pk)
    createImages env pk actor desired content

/-- `zf.read(path).decode("utf-8")`. -/
def readContent (entries : List (Str × Blob)) (path : Str) : Except Exc Str :=
  match zipRead entries path with
  | none => .error (.keyError path)
  | some (.raw _) => .error .unicodeDecodeError
  | some (.utf8 text) => .ok text

/-- The text becomes a new version when it is not the head's; the result says whether. -/
def importContent (env : Env) (pk : ℕ) (args : Import) (content : Str) : Py Bool := do
  let doc ← loadDocument pk
  if content ≠ (← get).readHead doc then do
    writeVersion env pk (Text.ofStr content) .newVersion [] args.origin true
    return true
  else return false

/-- One document of the manifest. -/
def importDocument (env : Env) (rb : ℕ) (sections : List (Str × ℕ)) (args : Import)
    (entries : List (Str × Blob)) (spec : DocumentSpec) : Py Outcome := do
  let content ← orRaise (readContent entries spec.path)
  let sec := spec.sec.bind fun slug => sections.lookup slug
  let (pk, isNew, metaChanged) ← upsertDocument env rb sec args spec
  let desired ← readImages entries (posixDirname spec.path) spec.images
  let content ← importImages env pk args.actor desired content
  let contentChanged ← importContent env pk args content
  return if isNew then .created else if metaChanged ∨ contentChanged then .updated else .unchanged

def importDocuments (env : Env) (rb : ℕ) (sections : List (Str × ℕ)) (args : Import)
    (entries : List (Str × Blob)) : List DocumentSpec → Py (List Outcome)
  | [] => return []
  | spec :: specs => do
      let outcome ← importDocument env rb sections args entries spec
      let outcomes ← importDocuments env rb sections args entries specs
      return outcome :: outcomes

/-- The managed documents a pruning import archives: those of the source whose key is not in
the bundle. A document without a key is one of them. -/
def isStale (rb : ℕ) (source : Str) (seen : List Str) (doc : Document) : Bool :=
  doc.runbook = some rb && !doc.isArchived && doc.source = source &&
    match doc.key with
    | none => true
    | some key => key ∉ seen

def archiveStale (rb : ℕ) (source : Str) (seen : List Str) (now : ℤ) (db : Db) : Db :=
  { db with documents := db.documents.map fun doc =>
      if isStale rb source seen doc then { doc with isArchived := true, archivedAt := some now }
      else doc }

/-- The last step of a pruning import; the result is the number of documents archived. -/
def pruneStale (rb : ℕ) (args : Import) (seen : List Str) : Py ℕ :=
  if args.prune then do
    let stale := (← getDb).documents.filter (isStale rb args.source seen)
    let now ← timezoneNow
    modifyDb (archiveStale rb args.source seen now)
    return stale.length
  else return 0

/-- `ImportResult`. -/
structure ImportResult where
  runbook : Str
  created : ℕ
  updated : ℕ
  archived : ℕ
  deriving DecidableEq, Repr

/-- `Runbook.objects.get_or_create`. -/
def getOrCreateRunbook (slug : Str) (manifest : Manifest) : Py Runbook := do
  match Table.get Runbook.slug (← getDb).runbooks slug with
  | some rb => return rb
  | none => insertRunbook fun id =>
      { id := id, slug := slug, name := manifest.name.getD slug,
        description := manifest.description.getD [], icon := manifest.icon.getD [] }

/-- `slug_override or rb_meta["slug"]`. -/
def importSlug (args : Import) (manifest : Manifest) : Except Exc Str :=
  match given args.slugOverride with
  | some slug => .ok slug
  | none =>
      match manifest.slug with
      | some slug => .ok slug
      | none => .error (.keyError "slug".toList)

/-- `import_bundle`. -/
def importBundle (env : Env) (bundle : Bundle) (args : Import) : Py ImportResult := atomic do
  let slug ← orRaise (importSlug args bundle.manifest)
  let rb ← getOrCreateRunbook slug bundle.manifest
  let sections ← importSections rb.id bundle.manifest.sections
  let outcomes ←
    importDocuments env rb.id sections args bundle.entries bundle.manifest.documents
  let archived ← pruneStale rb.id args (bundle.manifest.documents.map DocumentSpec.key)
  return { runbook := rb.slug, created := outcomes.count .created,
           updated := outcomes.count .updated, archived := archived }

/-! ## Operations -/

/-- What the app does to its documents, one call after the other; `elapse` lets time pass. -/
inductive Op
  | create (runbook : Str) (body : Text) (fields : NewDocument) (origin : Origin)
  | put (p : Put)
  | write (document : ℕ) (body : Text) (mode : WriteMode) (description : Str) (origin : Origin)
      (bypassLock : Bool)
  | restore (document version : ℕ) (origin : Origin) (bypassLock : Bool)
  | copy (c : Copy)
  | clone (c : Clone)
  | importBundle (bundle : Bundle) (args : Import)
  | attach (document : ℕ) (data : Blob) (filename alt : Str) (actor : Option Actor)
  | archive (document : ℕ) (actor : Option Actor) (bypassLock : Bool)
  | unarchive (document : ℕ) (actor : Option Actor) (bypassLock : Bool)
  | prune (policy : RetentionPolicy) (document : ℕ)
  | expire (policy : RetentionPolicy) (document : ℕ)
  | elapse (microseconds : ℕ)

def Op.program (env : Env) : Op → Py Unit
  | .create runbook body fields origin => do
      let rb ← orRaise (resolveRunbook (← getDb) runbook)
      let _ ← createDocument env rb body fields origin
  | .put p => do let _ ← putDocument env p
  | .write document body mode description origin bypassLock =>
      writeVersion env document body mode description origin bypassLock
  | .restore document version origin bypassLock =>
      restoreVersion env document version origin bypassLock
  | .copy c => do let _ ← copyDocument env c
  | .clone c => do let _ ← cloneRunbook env c
  | .importBundle bundle args => do let _ ← CwStation.Documents.importBundle env bundle args
  | .attach document data filename alt actor => do
      let _ ← attachImage env document data filename alt actor
  | .archive document actor bypassLock => archiveDocument document actor bypassLock
  | .unarchive document actor bypassLock => unarchiveDocument document actor bypassLock
  | .prune policy document => do let _ ← pruneVersions policy document
  | .expire policy document => expireDocument policy document
  | .elapse microseconds => modify fun w => { w with now := w.now + microseconds }

/-- The state after an operation, whether it returned or raised. -/
def Op.perform (env : Env) (op : Op) (w : World) : World := Effects.endState (op.program env) w

def run (env : Env) (ops : List Op) (w : World) : World :=
  ops.foldl (fun w op => op.perform env w) w

end CwStation.Documents
