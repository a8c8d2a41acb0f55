import CwStation.Library.Pattern
import CwStation.Library.Table
import CwStation.Model.Python
import Mathlib.Data.List.Sort

/-! # Runbook documents

The tables of the runbook app, the files behind the versions, and the document service: the
one write path of the web, the REST API, MCP and the command line. A program raises into the
state it has reached; `atomic` takes the tables back but not the files. Keys and slugs are
slugs, as their fields declare, so every document gives its file a name the storage takes. -/

namespace CwStation.Documents

/-! ## Text -/

/-- A code point of a Python `str`: a character, or a lone surrogate, which UTF-8 cannot
encode. -/
inductive CodePoint
  | char (c : Char)
  | surrogate (n : ℕ)
  deriving DecidableEq, Repr

/-- A `str` as it comes from outside. -/
abbrev Text := List CodePoint

def Text.ofStr (s : Str) : Text := s.map .char

/-- `body.encode("utf-8")`, decoded again; `none` where it raises. -/
def encode : Text → Option Str
  | [] => some []
  | .char c :: t => (encode t).map (c :: ·)
  | .surrogate _ :: _ => none

def CodePoint.isSpace : CodePoint → Bool
  | .char c => CwStation.isSpace c
  | .surrogate _ => false

/-- `text.strip()`. -/
def Text.strip (t : Text) : Text :=
  (((t.dropWhile CodePoint.isSpace).reverse).dropWhile CodePoint.isSpace).reverse

/-- What `append` writes: `(head.rstrip() + "\n\n" + body.strip() + "\n").lstrip("\n")`. -/
def appended (head : Str) (body : Text) : Text :=
  (Text.ofStr (rstrip head ++ ['\n', '\n']) ++ body.strip ++ Text.ofStr ['\n']).dropWhile
    (· = .char '\n')

/-- What is left of `text.replace(old, new)` after `skip` characters of a match. -/
def replaceFrom (old new : Str) : ℕ → Str → Str
  | _, [] => []
  | skip + 1, _ :: s => replaceFrom old new skip s
  | 0, c :: s =>
      if old <+: c :: s then new ++ replaceFrom old new (old.length - 1) s
      else c :: replaceFrom old new 0 s

/-- `text.replace(old, new)`: the matches from left to right that do not overlap; the empty
text matches everywhere. -/
def replaceText (old new s : Str) : Str :=
  if old = [] then new ++ s.flatMap fun c => c :: new else replaceFrom old new 0 s

/-! ## Front matter -/

/-- What `str.splitlines` takes for the end of a line. -/
def isLineBreak (c : Char) : Bool :=
  let n := c.toNat
  (10 ≤ n && n ≤ 13) || (28 ≤ n && n ≤ 30) || n == 0x85 || n == 0x2028 || n == 0x2029

/-- `text.splitlines(keepends=True)`. -/
def splitLines : Str → List Str
  | [] => []
  | '\r' :: '\n' :: s => ['\r', '\n'] :: splitLines s
  | c :: s =>
      if isLineBreak c then [c] :: splitLines s
      else match splitLines s with
        | [] => [[c]]
        | line :: lines => (c :: line) :: lines

/-- `!\[[^\]]*\]\([^)]*\)`. -/
def imageLine : Pattern.Pat Char :=
  .seq (.one (· == '!')) (.seq (.one (· == '[')) (.seq (.many (· != ']') 0 none)
    (.seq (.one (· == ']')) (.seq (.one (· == '(')) (.seq (.many (· != ')') 0 none)
      (.one (· == ')')))))))

/-- `[\w.\-]+\s*:\s*.*`. -/
def keyValueLine (u : Unicode) : Pattern.Pat Char :=
  .seq (.many (fun c => u.isWord c || c == '.' || c == '-') 1 none)
    (.seq (.many isSpace 0 none) (.seq (.one (· == ':'))
      (.seq (.many isSpace 0 none) (.many (· != '\n') 0 none))))

def isFence (line : Str) : Bool := strip line = "---".toList

/-- `strip_frontmatter`. -/
def stripFrontmatter (u : Unicode) (text : Str) : Str :=
  let text := if text.head? = some (Char.ofNat 0xfeff) then text.tail else text
  let lines := splitLines text
  let leading := lines.takeWhile fun line =>
    strip line = [] || Pattern.fullmatch imageLine (strip line)
  match lines.drop leading.length with
  | [] => strip text
  | fence :: rest =>
      if isFence fence then
        let block := rest.takeWhile fun line => !isFence line
        match rest.drop block.length with
        | [] => strip text
        | _ :: after =>
            let entries := (block.map strip).filter (· ≠ [])
            if entries ≠ [] ∧ entries.all (Pattern.fullmatch (keyValueLine u)) then
              strip (leading.flatten ++ after.flatten)
            else strip text
      else strip text

example : stripFrontmatter Unicode.ascii "---\na: b\n---\nText\n".toList = "Text".toList := by
  decide +kernel

/-! ## Tables -/

/-- The bytes of a file: UTF-8, or not. -/
inductive Blob
  | utf8 (text : Str)
  | raw (bytes : List ℕ)
  deriving DecidableEq, Repr

structure Runbook where
  id : ℕ
  name : Str
  slug : Str
  description : Str := []
  icon : Str := []
  owner : Option ℕ := none
  isPublic : Bool := false
  isTemplate : Bool := false
  defaultMaxVersions : Option ℤ := none
  defaultMaxVersionAgeDays : Option ℤ := none
  defaultTtlDays : Option ℤ := none
  deriving DecidableEq, Repr

structure Section where
  id : ℕ
  runbook : ℕ
  name : Str
  slug : Str
  description : Str := []
  icon : Str := []
  order : ℤ := 0
  deriving DecidableEq, Repr

structure Document where
  id : ℕ
  runbook : Option ℕ
  sec : Option ℕ := none
  key : Option Str := none
  slug : Str := []
  title : Str
  description : Str := []
  currentVersion : Option ℕ := none
  version : ℕ := 1
  fileType : Str := []
  contentText : Str := []
  isGenerated : Bool := false
  isTemplate : Bool := false
  docType : Str := []
  source : Str := []
  via : Str := []
  createdBy : Option ℕ := none
  isArchived : Bool := false
  archivedAt : Option ℤ := none
  locked : Bool := false
  maxVersions : Option ℤ := none
  maxVersionAgeDays : Option ℤ := none
  ttlDays : Option ℤ := none
  onExpire : Str := "archive".toList
  updatedAt : ℤ := 0
  deriving DecidableEq, Repr

/-- A content snapshot; `file` is the name its text has in the storage. -/
structure DocumentVersion where
  id : ℕ
  document : ℕ
  version : ℕ
  file : ℕ
  fileType : Str := []
  contentText : Str
  title : Str := []
  description : Str := []
  source : Str := []
  via : Str := []
  createdBy : Option ℕ := none
  createdAt : ℤ := 0
  deriving DecidableEq, Repr

/-- An image of a document: its bytes never change. `ext` ends its name in the storage. -/
structure DocumentImage where
  id : ℕ
  document : ℕ
  data : Blob
  ext : Str
  alt : Str := []
  uploadedBy : Option ℕ := none
  createdAt : ℤ := 0
  deriving DecidableEq, Repr

/-- The tables, with the next key of each. -/
structure Db where
  runbooks : List Runbook := []
  sections : List Section := []
  documents : List Document := []
  versions : List DocumentVersion := []
  images : List DocumentImage := []
  nextRunbook : ℕ := 1
  nextSection : ℕ := 1
  nextDocument : ℕ := 1
  nextVersion : ℕ := 1
  nextImage : ℕ := 1

/-- The tables, the texts of the storage under their names, and the clock in microseconds. -/
structure World where
  db : Db
  disk : List Str
  now : ℤ

/-- What the service takes from outside: Python's Unicode tables, Django's `slugify`, the
digest of a file, the `ORDER BY` of a nullable number and a title, and the retention
settings of generated documents. -/
structure Env where
  unicode : Unicode
  slugify : Str → Str
  sha256 : Blob → Str
  before : Option ℤ × Str → Option ℤ × Str → Bool
  generatedMaxVersions : Option ℤ := some 100
  generatedMaxVersionAgeDays : Option ℤ := none
  generatedTtlDays : Option ℤ := none

/-! ## Programs -/

inductive Exc
  | runbookNotFound (slug : Str)
  | sectionNotFound
  | documentNotFound
  | noSuchVersion (version : ℕ)
  | documentAlreadyExists (runbook key : Str)
  | versionConflict (expected head : ℕ)
  | documentLocked
  | notAuthorized
  | assertionError
  | unicodeEncodeError
  | unicodeDecodeError
  | integrityError
  | keyError (name : Str)
  deriving DecidableEq, Repr

abbrev Py := EStateM Exc World

/-- `transaction.atomic()`: an exception takes the tables back, the files stay. -/
def atomic {α : Type} (x : Py α) : Py α := fun w =>
  match x w with
  | .ok a w' => .ok a w'
  | .error e w' => .error e { w' with db := w.db }

def orRaise {α : Type} (x : Except Exc α) : Py α := fun w =>
  match x with
  | .ok a => .ok a w
  | .error e => .error e w

def modifyDb (f : Db → Db) : Py Unit := modify fun w => { w with db := f w.db }

/-- `timezone.now()`: each reading is a later one. -/
def timezoneNow : Py ℤ := modifyGet fun w => (w.now, { w with now := w.now + 1 })

def getDb : Py Db := do return (← get).db

/-! ## Permissions -/

structure Actor where
  id : Option ℕ
  isStaff : Bool := false
  isSuperuser : Bool := false
  deriving DecidableEq, Repr

def canView (user : Actor) (runbook : Option Runbook) : Bool :=
  match runbook with
  | none => user.isStaff
  | some rb => user.isStaff ||
      (user.id.isSome && (rb.isPublic || (rb.owner.isSome && rb.owner = user.id)))

def canEdit (user : Actor) (runbook : Option Runbook) : Bool :=
  match runbook with
  | none => user.isStaff
  | some rb => user.isStaff || (rb.owner.isSome && rb.owner = user.id)

/-- The runbook that governs a document, its own or its section's. -/
def runbookOf (db : Db) (doc : Document) : Option Runbook :=
  match doc.runbook with
  | some pk => Table.get Runbook.id db.runbooks pk
  | none =>
      (doc.sec.bind (Table.get Section.id db.sections)).bind fun s =>
        Table.get Runbook.id db.runbooks s.runbook

/-- `_check_writable`. The lock is asked of a trusted caller without `bypass_lock` too. -/
def checkWritable (db : Db) (doc : Document) (actor : Option Actor) (bypassLock : Bool) :
    Except Exc Unit :=
  match actor with
  | none => if doc.locked && !bypassLock then .error .documentLocked else .ok ()
  | some user =>
      if !bypassLock && !canEdit user (runbookOf db doc) then
        if canView user (runbookOf db doc) then .error .notAuthorized
        else .error .documentNotFound
      else if doc.locked && !bypassLock && !user.isSuperuser then .error .documentLocked
      else .ok ()

/-- The rights `create_document` asks for; a runbook the caller cannot see is not found. -/
def checkAddable (rb : Runbook) : Option Actor → Except Exc Unit
  | none => .ok ()
  | some user =>
      if canEdit user (some rb) then .ok ()
      else if canView user (some rb) then .error .notAuthorized
      else .error (.runbookNotFound rb.slug)

/-- A document a viewer cannot see is not found. -/
def checkViewable (db : Db) (doc : Document) : Option Actor → Except Exc Unit
  | none => .ok ()
  | some user => if canView user (runbookOf db doc) then .ok () else .error .documentNotFound

/-! ## Resolution -/

def resolveRunbook (db : Db) (slug : Str) : Except Exc Runbook :=
  match Table.get Runbook.slug db.runbooks slug with
  | some rb => .ok rb
  | none => .error (.runbookNotFound slug)

/-- A section, given by its slug or as a row. -/
inductive SectionRef
  | slug (slug : Str)
  | row (sec : Section)

def resolveSection (db : Db) (rb : Runbook) : Option SectionRef → Except Exc (Option Section)
  | none => .ok none
  | some (.row sec) => if sec.runbook = rb.id then .ok (some sec) else .error .sectionNotFound
  | some (.slug slug) =>
      match db.sections.find? fun sec => sec.runbook = rb.id ∧ sec.slug = slug with
      | some sec => .ok (some sec)
      | none => .error .sectionNotFound

/-- `Document.objects.filter(runbook=rb, key=key).first()`. -/
def findDocument (db : Db) (rb : ℕ) (key : Str) : Option Document :=
  db.documents.find? fun doc => doc.runbook = some rb ∧ doc.key = some key

/-- A row by its key; the caller holds a live one. -/
def loadDocument (pk : ℕ) : Py Document := do
  match Table.get Document.id (← getDb).documents pk with
  | some doc => return doc
  | none => throw .documentNotFound

/-! ## Heads -/

def headVersion (db : Db) (doc : Document) : Option DocumentVersion :=
  doc.currentVersion.bind (Table.get DocumentVersion.id db.versions)

def World.fileText (w : World) (v : DocumentVersion) : Str := w.disk.getD v.file []

/-- `read_head`. -/
def World.readHead (w : World) (doc : Document) : Str :=
  match headVersion w.db doc with
  | none => []
  | some v => w.fileText v

/-- `_md_file`: the text a file is made of. -/
def mdFile (body : Text) : Py Str :=
  match encode body with
  | some text => pure text
  | none => throw .unicodeEncodeError

def nextVersionNumber (db : Db) (doc : Document) : ℕ :=
  match headVersion db doc with
  | none => 1
  | some v => v.version + 1

/-- The provenance a write records. -/
structure Origin where
  source : Str := []
  via : Str := []
  actor : Option Actor := none

def Origin.user (origin : Origin) : Option ℕ := origin.actor.bind Actor.id

/-- `Document.create_new_version`: the file is stored, then the row is inserted, then the head
is moved (`_sync_head`). -/
def createNewVersion (env : Env) (pk : ℕ) (file description : Str) (origin : Origin) :
    Py Unit := do
  let doc ← loadDocument pk
  let w ← get
  let number := nextVersionNumber w.db doc
  let created ← timezoneNow
  modify fun w => { w with disk := w.disk ++ [file] }
  let text := stripFrontmatter env.unicode file
  if w.db.versions.any fun v => v.document = pk && v.version = number then
    throw .integrityError
  else
    let row : DocumentVersion :=
      { id := w.db.nextVersion, document := pk, version := number, file := w.disk.length,
        fileType := "md".toList, contentText := text, title := doc.title,
        description := description, source := origin.source, via := origin.via,
        createdBy := origin.user, createdAt := created }
    modifyDb fun db =>
      { db with
        versions := db.versions ++ [row]
        nextVersion := db.nextVersion + 1
        documents := Table.alter Document.id pk (fun doc =>
          { doc with
            currentVersion := some row.id
            version := number
            fileType := row.fileType
            contentText := text
            updatedAt := created }) db.documents }

/-- `_overwrite_head`: the file is opened for writing, and so emptied, before the body is
encoded. -/
def overwriteHead (env : Env) (pk : ℕ) (body : Text) (origin : Origin) : Py Unit := do
  let doc ← loadDocument pk
  match headVersion (← getDb) doc with
  | none => throw .assertionError
  | some v => do
      modify fun w => { w with disk := w.disk.set v.file [] }
      let text ← mdFile body
      modify fun w => { w with disk := w.disk.set v.file text }
      let updated ← timezoneNow
      let plain := stripFrontmatter env.unicode text
      modifyDb fun db =>
        { db with
          versions := Table.alter DocumentVersion.id v.id (fun v =>
            { v with
              contentText := plain
              source := if origin.source = [] then v.source else origin.source
              via := origin.via }) db.versions
          documents := Table.alter Document.id pk (fun doc =>
            { doc with contentText := plain, updatedAt := updated }) db.documents }

/-! ## Writing -/

inductive WriteMode
  | newVersion
  | overwrite
  | append
  | appendVersion
  deriving DecidableEq, Repr

/-- `write_version`, on the row as it stands. -/
def writeVersion (env : Env) (pk : ℕ) (body : Text) (mode : WriteMode) (description : Str)
    (origin : Origin) (bypassLock : Bool) : Py Unit := atomic do
  let doc ← loadDocument pk
  orRaise (checkWritable (← getDb) doc origin.actor bypassLock)
  match mode with
  | .newVersion => do
      let file ← mdFile body
      createNewVersion env pk file description origin
  | .overwrite => overwriteHead env pk body origin
  | .append => do
      let head := (← get).readHead doc
      overwriteHead env pk (appended head body) origin
  | .appendVersion => do
      let head := (← get).readHead doc
      let file ← mdFile (appended head body)
      createNewVersion env pk file description origin

/-- The fields `create_document` sets beside the body. -/
structure NewDocument where
  title : Str
  key : Option Str := none
  sec : Option SectionRef := none
  description : Str := []
  isGenerated : Bool := true
  docType : Str := []
  locked : Bool := false

/-- `Document.save` makes a slug of the title. -/
def Document.withSlug (env : Env) (doc : Document) : Document :=
  if doc.slug = [] then { doc with slug := env.slugify doc.title } else doc

/-- The unique constraint on `(runbook, key)` refuses a row. -/
def keyTaken (db : Db) (doc : Document) : Bool :=
  doc.runbook.isSome && doc.key.isSome &&
    db.documents.any fun d => d.runbook = doc.runbook && d.key = doc.key

/-- `Document.objects.create`. -/
def insertDocument (env : Env) (row : ℕ → ℤ → Document) : Py ℕ := do
  let db ← getDb
  let now ← timezoneNow
  let doc := (row db.nextDocument now).withSlug env
  if keyTaken db doc then throw .integrityError
  else do
    modifyDb fun db =>
      { db with documents := db.documents ++ [doc], nextDocument := db.nextDocument + 1 }
    return doc.id

/-- The row `create_document` inserts. -/
def NewDocument.row (fields : NewDocument) (rb : Runbook) (sec : Option Section) (origin : Origin)
    (id : ℕ) (now : ℤ) : Document where
  id := id
  runbook := some rb.id
  sec := sec.map Section.id
  key := fields.key
  title := fields.title
  description := fields.description
  source := origin.source
  via := origin.via
  isGenerated := fields.isGenerated
  docType := fields.docType
  locked := fields.locked
  createdBy := origin.user
  updatedAt := now

/-- `create_document`; it is not atomic, so the row stays when the body cannot be encoded. -/
def createDocument (env : Env) (rb : Runbook) (body : Text) (fields : NewDocument)
    (origin : Origin) : Py ℕ := do
  orRaise (checkAddable rb origin.actor)
  let sec ← orRaise (resolveSection (← getDb) rb fields.sec)
  let pk ← insertDocument env (fields.row rb sec origin)
  let file ← mdFile body
  createNewVersion env pk file [] origin
  return pk

inductive OnExists
  | newVersion
  | overwrite
  | append
  | appendVersion
  | fail
  deriving DecidableEq, Repr

/-- The write mode of an update; `fail` never gets there. -/
def OnExists.mode : OnExists → WriteMode
  | .newVersion | .fail => .newVersion
  | .overwrite => .overwrite
  | .append => .append
  | .appendVersion => .appendVersion

/-- The arguments of `put_document`. -/
structure Put where
  runbook : Str
  key : Str
  body : Text
  title : Option Str := none
  sec : Option SectionRef := none
  onExists : OnExists := .newVersion
  expectedVersion : Option ℕ := none
  isGenerated : Bool := true
  docType : Str := []
  locked : Option Bool := none
  origin : Origin := {}
  bypassLock : Bool := false

/-- The checks of an update, up to the optimistic lock. -/
def Put.checks (p : Put) (db : Db) (doc : Document) : Except Exc Unit :=
  match checkWritable db doc p.origin.actor p.bypassLock with
  | .error e => .error e
  | .ok () =>
      if p.onExists = .fail then .error (.documentAlreadyExists p.runbook p.key)
      else match p.expectedVersion with
        | none => .ok ()
        | some expected =>
            if doc.version ≠ expected then .error (.versionConflict expected doc.version)
            else .ok ()

/-- The row with the title, section and lock of the arguments; what is not given stays. -/
def Put.withMeta (p : Put) (sec : Option Section) (doc : Document) : Document :=
  { doc with
    title := p.title.getD doc.title
    sec := if p.sec.isSome then sec.map Section.id else doc.sec
    locked := p.locked.getD doc.locked }

def Put.touches (p : Put) (doc : Document) : Bool :=
  p.title.getD doc.title ≠ doc.title || p.sec.isSome || p.locked.getD doc.locked ≠ doc.locked

/-- `title or key`. -/
def Put.newTitle (p : Put) : Str :=
  match p.title with
  | none => p.key
  | some title => if title = [] then p.key else title

/-- What a put creates where nothing stands. -/
def Put.newDocument (p : Put) : NewDocument where
  title := p.newTitle
  key := some p.key
  sec := p.sec
  isGenerated := p.isGenerated
  docType := p.docType
  locked := p.locked.getD false

/-- The fields of the row an update changes before it writes the body. -/
def Put.updateMeta (p : Put) (sec : Option Section) (doc : Document) : Py Unit :=
  if p.touches doc then do
    let now ← timezoneNow
    let update (doc : Document) : Document := { p.withMeta sec doc with updatedAt := now }
    modifyDb fun db =>
      { db with documents := Table.alter Document.id doc.id update db.documents }
  else pure ()

/-- `put_document`. -/
def putDocument (env : Env) (p : Put) : Py ℕ := do
  let rb ← orRaise (resolveRunbook (← getDb) p.runbook)
  atomic do
    match findDocument (← getDb) rb.id p.key with
    | none =>
        createDocument env rb p.body p.newDocument p.origin
    | some doc => do
        orRaise (p.checks (← getDb) doc)
        let sec ← orRaise (resolveSection (← getDb) rb p.sec)
        p.updateMeta sec doc
        writeVersion env doc.id p.body p.onExists.mode [] p.origin p.bypassLock
        return doc.id

/-! ## Images -/

/-- `reverse("runbook:serve_image", pk)`, under the app's default mount. -/
def serveUrl (pk : ℕ) : Str := "/runbook/images/".toList ++ Nat.toDigits 10 pk ++ ['/']

/-- `doc.images.all()`, the newest first. -/
def imagesOf (db : Db) (doc : ℕ) : List DocumentImage :=
  (db.images.filter fun image => image.document = doc).insertionSort fun a b =>
    b.createdAt ≤ a.createdAt

def imageExtensions : List Str :=
  [".png".toList, ".jpg".toList, ".jpeg".toList, ".gif".toList, ".webp".toList]

/-- The end of the name `document_image_upload_to` gives a file. -/
def storedExtension (u : Unicode) (filename : Str) : Str :=
  let ext :=
    if '.' ∈ filename then
      '.' :: u.lower (filename.reverse.takeWhile (· ≠ '.')).reverse
    else []
  if ext ∈ imageExtensions then ext else ".bin".toList

/-- `DocumentImage.objects.create`. -/
def insertImage (document : ℕ) (data : Blob) (ext alt : Str) (actor : Option Actor) : Py ℕ := do
  let pk := (← getDb).nextImage
  let created ← timezoneNow
  modifyDb fun db =>
    { db with
      images := db.images ++
        [{ id := pk, document := document, data := data, ext := ext, alt := alt,
           uploadedBy := actor.bind Actor.id, createdAt := created }]
      nextImage := db.nextImage + 1 }
  return pk

/-- `attach_image`. -/
def attachImage (env : Env) (pk : ℕ) (data : Blob) (filename alt : Str) (actor : Option Actor) :
    Py ℕ := do
  let doc ← loadDocument pk
  insertImage doc.id data (storedExtension env.unicode filename) alt actor

/-- `clone_referenced_images`, over the images of the source. -/
def cloneImages (env : Env) (target : ℕ) (actor : Option Actor) :
    List DocumentImage → Str → Py Str
  | [], body => pure body
  | image :: images, body =>
      if serveUrl image.id <:+: body then do
        let ext := storedExtension env.unicode image.ext
        let pk ← insertImage target image.data ext image.alt actor
        cloneImages env target actor images (replaceText (serveUrl image.id) (serveUrl pk) body)
      else cloneImages env target actor images body

def cloneReferencedImages (env : Env) (body : Str) (source target : ℕ) (actor : Option Actor) :
    Py Str := do
  cloneImages env target actor (imagesOf (← getDb) source) body

/-! ## Archiving, restoring and copying -/

def setArchived (pk : ℕ) (archivedAt : Option ℤ) (updated : ℤ) (db : Db) : Db :=
  { db with documents := Table.alter Document.id pk (fun doc =>
      { doc with
        isArchived := archivedAt.isSome
        archivedAt := archivedAt
        updatedAt := updated }) db.documents }

def archiveDocument (pk : ℕ) (actor : Option Actor) (bypassLock : Bool) : Py Unit := do
  let doc ← loadDocument pk
  orRaise (checkWritable (← getDb) doc actor bypassLock)
  if !doc.isArchived then do
    let now ← timezoneNow
    modifyDb (setArchived pk (some now) now)

def unarchiveDocument (pk : ℕ) (actor : Option Actor) (bypassLock : Bool) : Py Unit := do
  let doc ← loadDocument pk
  orRaise (checkWritable (← getDb) doc actor bypassLock)
  if doc.isArchived then do
    let now ← timezoneNow
    modifyDb (setArchived pk none now)

/-- `restore_version`: the old text becomes a new head. -/
def restoreVersion (env : Env) (pk version : ℕ) (origin : Origin) (bypassLock : Bool) :
    Py Unit := do
  let doc ← loadDocument pk
  match (← getDb).versions.find? fun v => v.document = doc.id ∧ v.version = version with
  | none => throw (.noSuchVersion version)
  | some old => do
      let body := (← get).fileText old
      writeVersion env doc.id (Text.ofStr body) .newVersion
        ("Restored from version ".toList ++ Nat.toDigits 10 version) origin bypassLock

/-- The arguments of `copy_document`; a `viewer` has to be able to see the source. -/
structure Copy where
  source : ℕ
  viewer : Option Actor := none
  toRunbook : Str
  toKey : Str
  title : Option Str := none
  sec : Option SectionRef := none
  onExists : OnExists := .fail
  via : Str := "api".toList
  actor : Option Actor := none

/-- The copy shows its own images. -/
def rewriteCopy (env : Env) (c : Copy) (target : ℕ) (body rewritten : Str) : Py Unit :=
  if rewritten ≠ body then
    writeVersion env target (Text.ofStr rewritten) .overwrite [] { via := c.via, actor := c.actor }
      false
  else pure ()

/-- `copy_document`. -/
def copyDocument (env : Env) (c : Copy) : Py ℕ := do
  let src ← loadDocument c.source
  orRaise (checkViewable (← getDb) src c.viewer)
  let rb ← orRaise (resolveRunbook (← getDb) c.toRunbook)
  let body := (← get).readHead src
  let target ← putDocument env
    { runbook := rb.slug, key := c.toKey, body := Text.ofStr body,
      title := some (c.title.elim src.title fun title => if title = [] then src.title else title),
      sec := c.sec, onExists := c.onExists, docType := src.docType,
      origin := { source := src.source, via := c.via, actor := c.actor } }
  let rewritten ← cloneReferencedImages env body src.id target c.actor
  rewriteCopy env c target body rewritten
  return target

/-! ## Cloning a runbook -/

/-- `f"{base}-{n}"` for the first free `n` from `counter` on; one of any `fuel` numbers is
free when fewer runbooks stand. -/
def numberedSlug (db : Db) (base : Str) : ℕ → ℕ → Str
  | 0, counter => base ++ '-' :: Nat.toDigits 10 counter
  | fuel + 1, counter =>
      let slug := base ++ '-' :: Nat.toDigits 10 counter
      if db.runbooks.any fun rb => rb.slug = slug then numberedSlug db base fuel (counter + 1)
      else slug

/-- `_unique_slug`. -/
def uniqueSlug (db : Db) (base : Str) : Str :=
  let base := if base = [] then "runbook".toList else base
  if db.runbooks.any fun rb => rb.slug = base then numberedSlug db base db.runbooks.length 2
  else base

/-- `Runbook.objects.create`: slugs are unique. -/
def insertRunbook (row : ℕ → Runbook) : Py Runbook := do
  let db ← getDb
  let rb := row db.nextRunbook
  if db.runbooks.any fun r => r.slug = rb.slug then throw .integrityError
  else do
    modifyDb fun db =>
      { db with runbooks := db.runbooks ++ [rb], nextRunbook := db.nextRunbook + 1 }
    return rb

/-- `Section.objects.create` in a runbook that has no section of the slug. -/
def insertSection (row : ℕ → Section) : Py Section := do
  let sec := row (← getDb).nextSection
  modifyDb fun db =>
    { db with sections := db.sections ++ [sec], nextSection := db.nextSection + 1 }
  return sec

/-- The sections of the copy, each under the key of the one it copies. -/
def cloneSections (target : ℕ) : List Section → Py (List (ℕ × ℕ))
  | [] => return []
  | sec :: sections => do
      let copy ← insertSection fun id => { sec with id := id, runbook := target }
      return (sec.id, copy.id) :: (← cloneSections target sections)

/-- One page of the copy. -/
def clonePage (env : Env) (target : ℕ) (sectionMap : List (ℕ × ℕ)) (copyLocked : Bool)
    (actor : Option Actor) (doc : Document) : Py Unit := do
  let pk ← insertDocument env fun id now =>
    { id := id, runbook := some target, sec := doc.sec.bind fun s => sectionMap.lookup s,
      key := doc.key, slug := doc.slug, title := doc.title, description := doc.description,
      docType := doc.docType, isGenerated := doc.isGenerated, source := doc.source,
      via := "clone".toList, locked := doc.locked && copyLocked,
      createdBy := actor.bind Actor.id, updatedAt := now }
  let body ← cloneReferencedImages env ((← get).readHead doc) doc.id pk actor
  createNewVersion env pk body [] { source := doc.source, via := "clone".toList, actor := actor }

def clonePages (env : Env) (target : ℕ) (sectionMap : List (ℕ × ℕ)) (copyLocked : Bool)
    (actor : Option Actor) : List Document → Py Unit
  | [] => pure ()
  | doc :: docs => do
      clonePage env target sectionMap copyLocked actor doc
      clonePages env target sectionMap copyLocked actor docs

/-- The pages of a runbook that are not archived, in the order of their keys. -/
def livePages (db : Db) (runbook : ℕ) : List Document :=
  db.documents.filter fun doc => doc.runbook = some runbook && !doc.isArchived

/-- The arguments of `clone_runbook`. -/
structure Clone where
  source : Str
  newSlug : Option Str := none
  newName : Option Str := none
  asTemplate : Bool := false
  copyLocked : Bool := false
  actor : Option Actor := none
  owner : Option Actor := none

/-- A string argument that was given and is not empty. -/
def given (s : Option Str) : Option Str := s.filter (· ≠ [])

/-- `clone_runbook`. -/
def cloneRunbook (env : Env) (c : Clone) : Py ℕ := atomic do
  let src ← orRaise (resolveRunbook (← getDb) c.source)
  let db ← getDb
  let base := match given c.newName with
    | some name => env.slugify name
    | none => src.slug
  let target ← insertRunbook fun id =>
    { src with
      id := id
      name := (given c.newName).getD src.name
      slug := (given c.newSlug).getD (uniqueSlug db base)
      owner := c.owner.bind Actor.id
      isPublic := false
      isTemplate := c.asTemplate }
  let sections := (db.sections.filter fun sec => sec.runbook = src.id).insertionSort fun a b =>
    env.before (some a.order, a.name) (some b.order, b.name)
  let sectionMap ← cloneSections target.id sections
  clonePages env target.id sectionMap c.copyLocked c.actor (livePages (← getDb) src.id)
  return target.id

/-! ## Retention -/

structure RetentionPolicy where
  maxVersions : Option ℤ
  maxVersionAgeDays : Option ℤ
  ttlDays : Option ℤ
  onExpire : Str

/-- `effective_policy`: the document's value, else its runbook's, else the global one. -/
def effectivePolicy (env : Env) (db : Db) (doc : Document) : RetentionPolicy :=
  let rb := doc.runbook.bind (Table.get Runbook.id db.runbooks)
  let resolve (own : Option ℤ) (field : Runbook → Option ℤ) (setting : Option ℤ) : Option ℤ :=
    own.or ((rb.bind field).or (if doc.isGenerated then setting else none))
  { maxVersions := resolve doc.maxVersions Runbook.defaultMaxVersions env.generatedMaxVersions
    maxVersionAgeDays := resolve doc.maxVersionAgeDays Runbook.defaultMaxVersionAgeDays
      env.generatedMaxVersionAgeDays
    ttlDays := resolve doc.ttlDays Runbook.defaultTtlDays env.generatedTtlDays
    onExpire := if doc.onExpire = [] then "archive".toList else doc.onExpire }

def microsecondsPerDay : ℤ := 86400000000

/-- `items[n:]`. -/
def sliceFrom {α : Type} (n : ℤ) (items : List α) : List α :=
  if 0 ≤ n then items.drop n.toNat else items.drop (items.length - (-n).toNat)

/-- The versions of a document, the newest first. -/
def versionsOf (db : Db) (doc : ℕ) : List DocumentVersion :=
  (db.versions.filter fun v => v.document = doc).insertionSort fun a b => b.version ≤ a.version

/-- The versions a policy gives up; the caller takes the head out. -/
def doomed (policy : RetentionPolicy) (now : ℤ) (versions : List DocumentVersion) : List ℕ :=
  let beyond := match policy.maxVersions with
    | none => []
    | some n => sliceFrom n versions
  let aged := match policy.maxVersionAgeDays with
    | none => []
    | some days => versions.filter fun v => v.createdAt < now - days * microsecondsPerDay
  (beyond ++ aged).map DocumentVersion.id

/-- `DocumentVersion` rows deleted; heads that pointed at one are set to NULL. -/
def deleteVersions (pks : List ℕ) (db : Db) : Db :=
  { db with
    versions := db.versions.filter fun v => v.id ∉ pks
    documents := db.documents.map fun doc =>
      { doc with currentVersion := doc.currentVersion.filter (· ∉ pks) } }

/-- `prune_versions`, under a policy. -/
def pruneVersions (policy : RetentionPolicy) (pk : ℕ) : Py ℕ := do
  let doc ← loadDocument pk
  let now ← timezoneNow
  let db ← getDb
  let pks := (doomed policy now (versionsOf db pk)).filter fun v => doc.currentVersion ≠ some v
  modifyDb (deleteVersions pks)
  return (db.versions.filter fun v => v.id ∈ pks).length

/-- `doc.delete()`: versions and images go with it. -/
def deleteDocument (pk : ℕ) (db : Db) : Db :=
  { db with
    documents := db.documents.filter fun doc => doc.id ≠ pk
    versions := db.versions.filter fun v => v.document ≠ pk
    images := db.images.filter fun image => image.document ≠ pk }

/-- `is_expired`. -/
def isExpired (policy : RetentionPolicy) (doc : Document) (now : ℤ) : Bool :=
  match policy.ttlDays with
  | none => false
  | some days => !doc.isArchived && doc.updatedAt < now - days * microsecondsPerDay

/-- `expire_document`, under a policy. -/
def expireDocument (policy : RetentionPolicy) (pk : ℕ) : Py Unit := do
  let doc ← loadDocument pk
  if policy.onExpire = "delete".toList then modifyDb (deleteDocument doc.id)
  else do
    let now ← timezoneNow
    modifyDb (setArchived doc.id (some now) now)

/-- One document of `run_sweep`: how many versions are pruned, and whether it has expired. -/
def sweepDocument (env : Env) (now : ℤ) (pk : ℕ) : Py (ℕ × ℕ) := do
  let doc ← loadDocument pk
  let policy := effectivePolicy env (← getDb) doc
  let n ← pruneVersions policy pk
  if isExpired policy doc now then do
    expireDocument policy pk
    return (n, 1)
  else return (n, 0)

def sweepLoop (env : Env) (now : ℤ) : List ℕ → Py (ℕ × ℕ)
  | [] => return (0, 0)
  | pk :: pks => do
      let counts ← sweepDocument env now pk
      let rest ← sweepLoop env now pks
      return (counts.1 + rest.1, counts.2 + rest.2)

/-- `run_sweep`. -/
def runSweep (env : Env) (now : ℤ) : Py (ℕ × ℕ) := do
  let db ← getDb
  sweepLoop env now ((db.documents.filter fun doc => !doc.isArchived).map Document.id)

end CwStation.Documents
