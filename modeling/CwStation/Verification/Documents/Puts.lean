import CwStation.Verification.Documents.Service

/-! # What a put does

The outcomes of `put_document` and `write_version`, case by case. -/

namespace CwStation.Documents

open Effects

variable {env : Env}

/-! ### Writing -/

section Writing

variable {w : World} {pk : ℕ} {doc : Document} {body : Text} {mode : WriteMode}
  {description : Str} {origin : Origin} {bypassLock : Bool}

/-- The text a write stores behind a head. -/
def WriteMode.text (mode : WriteMode) (head : Str) (body : Text) : Text :=
  match mode with
  | .newVersion | .overwrite => body
  | .append | .appendVersion => appended head body

theorem writeVersion_noDocument (h : Table.get Document.id w.db.documents pk = none) :
    writeVersion env pk body mode description origin bypassLock w =
      .error .documentNotFound w := by
  simp only [writeVersion, atomic, bind_of_error (loadDocument_none h)]

theorem writeVersion_refused {e : Exc} (h : Table.get Document.id w.db.documents pk = some doc)
    (hrefused : checkWritable w.db doc origin.actor bypassLock = .error e) :
    writeVersion env pk body mode description origin bypassLock w = .error e w := by
  simp only [writeVersion, atomic, bind_of_ok (loadDocument_some h)]
  simp only [getDb, bind, EStateM.bind, get, getThe, MonadStateOf.get, get_eq_ok, pure,
    EStateM.pure, orRaise, hrefused]

/-- A write that may be made. -/
theorem writeVersion_allowed (h : Table.get Document.id w.db.documents pk = some doc)
    (hallowed : checkWritable w.db doc origin.actor bypassLock = .ok ()) :
    writeVersion env pk body mode description origin bypassLock w =
      atomic (if mode.inPlace then
          overwriteHead env pk (mode.text (w.readHead doc) body) origin
        else do
          let file ← mdFile (mode.text (w.readHead doc) body)
          createNewVersion env pk file description origin) w := by
  simp only [writeVersion, atomic, bind_of_ok (loadDocument_some h)]
  cases mode <;>
    simp only [getDb, bind, EStateM.bind, get, getThe, MonadStateOf.get, get_eq_ok, pure,
      EStateM.pure, orRaise, hallowed, WriteMode.inPlace, WriteMode.text] <;> rfl

theorem writeVersion_inPlace {v : DocumentVersion} {text : Str}
    (h : Table.get Document.id w.db.documents pk = some doc)
    (hallowed : checkWritable w.db doc origin.actor bypassLock = .ok ())
    (hmode : mode.inPlace = true) (hhead : headVersion w.db doc = some v)
    (htext : encode (mode.text (w.readHead doc) body) = some text) :
    writeVersion env pk body mode description origin bypassLock w =
      .ok () (w.overwritten env pk v text origin) := by
  rw [writeVersion_allowed h hallowed, if_pos hmode, atomic, overwriteHead_some h hhead htext]

theorem writeVersion_snapshot {text : Str}
    (h : Table.get Document.id w.db.documents pk = some doc)
    (hallowed : checkWritable w.db doc origin.actor bypassLock = .ok ())
    (hmode : mode.inPlace = false)
    (htext : encode (mode.text (w.readHead doc) body) = some text)
    (hfree : (w.db.versions.any fun v =>
      v.document = pk && v.version = nextVersionNumber w.db doc) = false) :
    writeVersion env pk body mode description origin bypassLock w =
      .ok () (w.withVersion env doc text description origin) := by
  have hfile : mdFile (mode.text (w.readHead doc) body) w = .ok text w := by
    simp only [mdFile, htext]
    rfl
  rw [writeVersion_allowed h hallowed, hmode, atomic]
  simp only [Bool.false_eq_true, if_false, bind_of_ok hfile]
  rw [createNewVersion_some h, hfree]
  rfl

end Writing

/-! ### Putting -/

section Put

variable {p : Put} {w : World} {rb : Runbook} {doc : Document}

theorem putDocument_noRunbook {e : Exc} (h : resolveRunbook w.db p.runbook = .error e) :
    putDocument env p w = .error e w := by
  simp only [putDocument, getDb, bind, EStateM.bind, get, getThe, MonadStateOf.get, get_eq_ok,
    pure, EStateM.pure, orRaise, h]

/-- What a put does to a document that stands, after the checks. -/
def Put.update (env : Env) (p : Put) (sec : Option Section) (doc : Document) : Py ℕ := do
  p.updateMeta sec doc
  writeVersion env doc.id p.body p.onExists.mode [] p.origin p.bypassLock
  return doc.id

theorem putDocument_refused {e : Exc} (hrb : resolveRunbook w.db p.runbook = .ok rb)
    (hdoc : findDocument w.db rb.id p.key = some doc) (h : p.checks w.db doc = .error e) :
    putDocument env p w = .error e w := by
  simp only [putDocument, getDb, bind, EStateM.bind, get, getThe, MonadStateOf.get, get_eq_ok,
    pure, EStateM.pure, orRaise, atomic, hrb, hdoc, h]

theorem putDocument_noSection {e : Exc} (hrb : resolveRunbook w.db p.runbook = .ok rb)
    (hdoc : findDocument w.db rb.id p.key = some doc) (hchecks : p.checks w.db doc = .ok ())
    (h : resolveSection w.db rb p.sec = .error e) : putDocument env p w = .error e w := by
  simp only [putDocument, getDb, bind, EStateM.bind, get, getThe, MonadStateOf.get, get_eq_ok,
    pure, EStateM.pure, orRaise, atomic, hrb, hdoc, hchecks, h]

theorem putDocument_update {sec : Option Section} (hrb : resolveRunbook w.db p.runbook = .ok rb)
    (hdoc : findDocument w.db rb.id p.key = some doc) (hchecks : p.checks w.db doc = .ok ())
    (hsec : resolveSection w.db rb p.sec = .ok sec) :
    putDocument env p w = atomic (p.update env sec doc) w := by
  simp only [putDocument, getDb, bind, EStateM.bind, get, getThe, MonadStateOf.get, get_eq_ok,
    pure, EStateM.pure, orRaise, atomic, hrb, hdoc, hchecks, hsec]
  rfl

theorem putDocument_create (hrb : resolveRunbook w.db p.runbook = .ok rb)
    (hdoc : findDocument w.db rb.id p.key = none) :
    putDocument env p w = atomic (createDocument env rb p.body p.newDocument p.origin) w := by
  simp only [putDocument, getDb, bind, EStateM.bind, get, getThe, MonadStateOf.get, get_eq_ok,
    pure, EStateM.pure, orRaise, atomic, hrb, hdoc]

/-- An update of a row, when its time is read. -/
def World.altered (w : World) (pk : ℕ) (update : Document → Document) (now : ℤ) : World where
  db := { w.db with documents := Table.alter Document.id pk update w.db.documents }
  disk := w.disk
  now := now

theorem aside_altered {pk : ℕ} {update : Document → Document}
    (hface : ∀ d, face (update d) = face d) (now : ℤ) : Aside w (w.altered pk update now) where
  versions := rfl
  nextVersion := rfl
  nextDocument := rfl
  faces := by
    show (w.db.documents.map _).map face = w.db.documents.map face
    rw [List.map_map]
    apply List.map_congr_left
    intro d hd
    by_cases hpk : d.id = pk
    · rw [Function.comp_apply, if_pos hpk]
      exact hface d
    · rw [Function.comp_apply, if_neg hpk]
  disk := rfl

theorem get_altered {pk : ℕ} {update : Document → Document} (hid : ∀ d, (update d).id = d.id)
    (now : ℤ) (h : Table.get Document.id w.db.documents pk = some doc) :
    Table.get Document.id (w.altered pk update now).db.documents pk = some (update doc) := by
  rw [World.altered, Table.get_alter hid, if_pos rfl, h]
  rfl

/-- The update of title, section and lock. -/
theorem updateMeta_run (p : Put) (sec : Option Section) (w : World) (doc : Document) :
    ∃ update now, p.updateMeta sec doc w = .ok () (w.altered doc.id update now) ∧
      (∀ d, face (update d) = face d) ∧ (update doc).locked = p.locked.getD doc.locked ∧
      w.now ≤ now := by
  by_cases htouch : p.touches doc = true
  · refine ⟨fun d => { p.withMeta sec d with updatedAt := w.now }, w.now + 1, ?_, fun _ => rfl, rfl,
      Int.le_add_one le_rfl⟩
    rw [Put.updateMeta, if_pos htouch]
    rfl
  · refine ⟨id, w.now, ?_, fun _ => rfl, ?_, le_rfl⟩
    · rw [Put.updateMeta, if_neg htouch, World.altered, Table.alter_id]
      rfl
    · simp [Put.touches] at htouch
      exact htouch.2.symm

/-- An update ends with the write, on the row as it then stands. -/
theorem update_run (env : Env) (p : Put) (sec : Option Section) (w : World) (doc : Document) :
    ∃ update now, p.update env sec doc w = (do
        writeVersion env doc.id p.body p.onExists.mode [] p.origin p.bypassLock
        return doc.id : Py ℕ) (w.altered doc.id update now) ∧
      (∀ d, face (update d) = face d) ∧ (update doc).locked = p.locked.getD doc.locked ∧
      w.now ≤ now := by
  obtain ⟨update, now, hrun, hface, hlocked, hnow⟩ := updateMeta_run p sec w doc
  exact ⟨update, now, bind_of_ok hrun, hface, hlocked, hnow⟩

theorem id_of_face {d d' : Document} (h : face d = face d') : d.id = d'.id :=
  congrArg (fun f => f.1.1) h

theorem headVersion_aside {w' : World} {doc' : Document} (haside : Aside w w')
    (hface : face doc' = face doc) : headVersion w'.db doc' = headVersion w.db doc := by
  have hcurrent : doc'.currentVersion = doc.currentVersion := congrArg (fun f => f.1.2.1) hface
  rw [headVersion, headVersion, hcurrent, haside.versions]

theorem readHead_aside {w' : World} {doc' : Document} (haside : Aside w w')
    (hface : face doc' = face doc) : w'.readHead doc' = w.readHead doc := by
  rw [World.readHead, World.readHead, headVersion_aside haside hface]
  simp only [World.fileText, haside.disk]

end Put

end CwStation.Documents
