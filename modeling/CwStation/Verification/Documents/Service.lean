import CwStation.Verification.Documents.History

/-! # What the document service does to the histories

Each program either adds to the files and tables or, as its last step, rewrites a head. So a
program that raises inside a transaction leaves the tables and the old files as they were. -/

namespace CwStation.Documents

open Effects

variable {env : Env} {α β : Type}

/-! ### Sequencing -/

/-- A head may be rewritten when nothing is left that could raise. -/
theorem writes_bind {x : Py α} {f : α → Py β} (hx : Moves (Grows env) (Grows env) x)
    (hf : ∀ a, Moves (Evolves env) (Grows env) (f a)) :
    Moves (Evolves env) (Grows env) (x >>= f) :=
  hx.bind hf (fun _ _ _ h h' => h.1.trans h') (fun _ _ h => h) fun _ _ _ => Grows.trans

theorem evolves_bind {x : Py α} {f : α → Py β} (hx : Moves (Evolves env) (Evolves env) x)
    (hf : ∀ a, Moves (Evolves env) (Evolves env) (f a)) :
    Moves (Evolves env) (Evolves env) (x >>= f) :=
  hx.bind hf (fun _ _ _ => Evolves.trans) (fun _ _ h => h) fun _ _ _ => Evolves.trans

theorem grows_writes {x : Py α} (hx : Moves (Grows env) (Grows env) x) :
    Moves (Evolves env) (Grows env) x := hx.weaken (fun _ _ h => h.1) fun _ _ h => h

theorem writes_evolves {x : Py α} (hx : Moves (Evolves env) (Grows env) x) :
    Moves (Evolves env) (Evolves env) x := hx.weaken (fun _ _ h => h) fun _ _ h => h.1

/-- A transaction takes back the tables of a program that wrote no old file. -/
theorem writes_atomic {x : Py α} (hx : Moves (Evolves env) (Grows env) x) :
    Moves (Evolves env) (Grows env) (atomic x) := by
  intro w
  have hrun := hx w
  rw [atomic]
  cases h : x w with
  | ok a w' =>
    rw [h] at hrun
    exact hrun
  | error e w' =>
    rw [h] at hrun
    exact grows_rollback hrun.2

/-! ### Steps beside the histories -/

/-- What the histories and the keys see of a document. -/
def face (doc : Document) : (ℕ × Option ℕ × ℕ × Str) × Option ℕ × Option Str :=
  (core doc, doc.runbook, doc.key)

/-- A step that touches no version, no head, no key and no file. -/
structure Aside (w w' : World) : Prop where
  versions : w'.db.versions = w.db.versions
  nextVersion : w'.db.nextVersion = w.db.nextVersion
  nextDocument : w'.db.nextDocument = w.db.nextDocument
  faces : w'.db.documents.map face = w.db.documents.map face
  disk : w'.disk = w.disk

theorem Aside.refl (w : World) : Aside w w := ⟨rfl, rfl, rfl, rfl, rfl⟩

theorem Aside.trans {w w' w'' : World} (h : Aside w w') (h' : Aside w' w'') : Aside w w'' where
  versions := h'.versions.trans h.versions
  nextVersion := h'.nextVersion.trans h.nextVersion
  nextDocument := h'.nextDocument.trans h.nextDocument
  faces := h'.faces.trans h.faces
  disk := h'.disk.trans h.disk

theorem Aside.grows {w w' : World} (h : Aside w w') : Grows env w w' := by
  have hcore := congrArg (List.map Prod.fst) h.faces
  rw [List.map_map, List.map_map] at hcore
  exact grows_of_core h.versions h.nextVersion h.nextDocument.ge hcore (h.disk ▸ List.prefix_rfl)

theorem grows_aside {x : Py α} (hx : Moves Aside Aside x) : Moves (Grows env) (Grows env) x :=
  hx.weaken (fun _ _ => Aside.grows) fun _ _ => Aside.grows

theorem aside_bind {x : Py α} {f : α → Py β} (hx : Moves Aside Aside x)
    (hf : ∀ a, Moves Aside Aside (f a)) : Moves Aside Aside (x >>= f) :=
  hx.bind hf (fun _ _ _ => Aside.trans) (fun _ _ h => h) fun _ _ _ => Aside.trans

theorem aside_pure (a : α) : Moves Aside Aside (pure a : Py α) := moves_pure Aside.refl a

theorem aside_throw (e : Exc) : Moves Aside Aside (throw e : Py α) := moves_throw Aside.refl e

theorem aside_get : Moves Aside Aside (get : Py World) := moves_get Aside.refl

theorem aside_getDb : Moves Aside Aside getDb := aside_bind aside_get fun _ => aside_pure _

theorem aside_orRaise (x : Except Exc α) : Moves Aside Aside (orRaise x) := by
  intro w
  cases x <;> exact Aside.refl w

theorem aside_timezoneNow : Moves Aside Aside timezoneNow := fun _ => ⟨rfl, rfl, rfl, rfl, rfl⟩

theorem aside_mdFile (body : Text) : Moves Aside Aside (mdFile body) := by
  unfold mdFile
  cases encode body with
  | none => exact aside_throw _
  | some text => exact aside_pure text

theorem aside_loadDocument (pk : ℕ) : Moves Aside Aside (loadDocument pk) := by
  apply aside_bind aside_getDb
  intro db
  cases Table.get Document.id db.documents pk with
  | none => exact aside_throw _
  | some doc => exact aside_pure doc

/-- A change of other tables. -/
theorem aside_modifyDb {f : Db → Db} (hf : ∀ db, (f db).versions = db.versions ∧
    (f db).nextVersion = db.nextVersion ∧ (f db).nextDocument = db.nextDocument ∧
    (f db).documents = db.documents) : Moves Aside Aside (modifyDb f) :=
  moves_modify fun w =>
    ⟨(hf w.db).1, (hf w.db).2.1, (hf w.db).2.2.1, congrArg _ (hf w.db).2.2.2, rfl⟩

/-- A change of other fields of documents. -/
theorem aside_mapDocuments {f : Document → Document} (hf : ∀ doc, face (f doc) = face doc) :
    Moves Aside Aside (modifyDb fun db => { db with documents := db.documents.map f }) := by
  refine moves_modify fun w => ⟨rfl, rfl, rfl, ?_, rfl⟩
  show (w.db.documents.map f).map face = w.db.documents.map face
  rw [List.map_map]
  exact List.map_congr_left fun doc _ => hf doc

theorem aside_alterDocument {pk : ℕ} {f : Document → Document}
    (hf : ∀ doc, face (f doc) = face doc) :
    Moves Aside Aside (modifyDb fun db =>
      { db with documents := Table.alter Document.id pk f db.documents }) := by
  apply aside_mapDocuments
  intro doc
  by_cases hpk : doc.id = pk
  · rw [if_pos hpk, hf]
  · rw [if_neg hpk]

/-! ### Versions -/

section Versions

variable {w : World} {pk : ℕ} {doc : Document} {file description : Str} {origin : Origin}

theorem createNewVersion_none (h : Table.get Document.id w.db.documents pk = none) :
    createNewVersion env pk file description origin w = .error .documentNotFound w := by
  have hload : loadDocument pk w = .error .documentNotFound w := by
    simp only [loadDocument, getDb, bind, EStateM.bind, get, getThe, MonadStateOf.get,
      get_eq_ok, pure, EStateM.pure, h]
    rfl
  exact bind_of_error hload

theorem loadDocument_some (h : Table.get Document.id w.db.documents pk = some doc) :
    loadDocument pk w = .ok doc w := by
  simp only [loadDocument, getDb, bind, EStateM.bind, get, getThe, MonadStateOf.get,
    get_eq_ok, pure, EStateM.pure, h]

theorem createNewVersion_some (h : Table.get Document.id w.db.documents pk = some doc) :
    createNewVersion env pk file description origin w =
      if (w.db.versions.any fun v =>
          v.document = pk && v.version = nextVersionNumber w.db doc) = true then
        .error .integrityError { w with disk := w.disk ++ [file], now := w.now + 1 }
      else .ok () (w.withVersion env doc file description origin) := by
  have hpk : doc.id = pk := Table.key_of_get h
  subst hpk
  rw [createNewVersion, bind_of_ok (loadDocument_some h)]
  by_cases hdup : (w.db.versions.any fun v =>
      v.document = doc.id && v.version = nextVersionNumber w.db doc) = true
  · rw [if_pos hdup]
    simp only [bind, EStateM.bind, get, getThe, MonadStateOf.get, get_eq_ok, timezoneNow,
      modifyGet, MonadStateOf.modifyGet, modifyGet_eq_ok, modify, hdup, if_true]
    rfl
  · rw [if_neg hdup]
    simp only [bind, EStateM.bind, get, getThe, MonadStateOf.get, get_eq_ok, timezoneNow,
      modifyGet, MonadStateOf.modifyGet, modifyGet_eq_ok, modify, hdup]
    rfl

theorem loadDocument_none (h : Table.get Document.id w.db.documents pk = none) :
    loadDocument pk w = .error .documentNotFound w := by
  simp only [loadDocument, getDb, bind, EStateM.bind, get, getThe, MonadStateOf.get,
    get_eq_ok, pure, EStateM.pure, h]
  rfl

theorem overwriteHead_noDocument {body : Text}
    (h : Table.get Document.id w.db.documents pk = none) :
    overwriteHead env pk body origin w = .error .documentNotFound w :=
  bind_of_error (loadDocument_none h)

theorem grows_createNewVersion :
    Moves (Grows env) (Grows env) (createNewVersion env pk file description origin) := by
  intro w
  cases h : Table.get Document.id w.db.documents pk with
  | none =>
    rw [createNewVersion_none h]
    exact Grows.refl env w
  | some doc =>
    rw [createNewVersion_some h]
    by_cases hdup : (w.db.versions.any fun v =>
        v.document = pk && v.version = nextVersionNumber w.db doc) = true
    · rw [if_pos hdup]
      exact grows_of_core rfl rfl le_rfl rfl (List.prefix_append _ _)
    · rw [if_neg hdup]
      exact grows_withVersion (Table.get_mem h)

theorem overwriteHead_none {body : Text} (h : Table.get Document.id w.db.documents pk = some doc)
    (hhead : headVersion w.db doc = none) :
    overwriteHead env pk body origin w = .error .assertionError w := by
  rw [overwriteHead, bind_of_ok (loadDocument_some h)]
  simp only [getDb, bind, EStateM.bind, get, getThe, MonadStateOf.get, get_eq_ok, pure,
    EStateM.pure, hhead]
  rfl

theorem overwriteHead_some {body : Text} {text : Str} {v : DocumentVersion}
    (h : Table.get Document.id w.db.documents pk = some doc)
    (hhead : headVersion w.db doc = some v) (hbody : encode body = some text) :
    overwriteHead env pk body origin w = .ok () (w.overwritten env pk v text origin) := by
  rw [overwriteHead, bind_of_ok (loadDocument_some h)]
  simp only [getDb, bind, EStateM.bind, get, getThe, MonadStateOf.get, get_eq_ok, pure,
    EStateM.pure, hhead, mdFile, hbody, timezoneNow, modifyGet, MonadStateOf.modifyGet,
    modifyGet_eq_ok, modify, modifyDb, List.set_set]
  rfl

theorem overwriteHead_unencodable {body : Text} {v : DocumentVersion}
    (h : Table.get Document.id w.db.documents pk = some doc)
    (hhead : headVersion w.db doc = some v) (hbody : encode body = none) :
    overwriteHead env pk body origin w =
      .error .unicodeEncodeError { w with disk := w.disk.set v.file [] } := by
  rw [overwriteHead, bind_of_ok (loadDocument_some h)]
  simp only [getDb, bind, EStateM.bind, get, getThe, MonadStateOf.get, get_eq_ok, pure,
    EStateM.pure, hhead, mdFile, hbody, modify, modifyGet, MonadStateOf.modifyGet,
    modifyGet_eq_ok]
  rfl

theorem synced_of_head (hs : Sound env w) (hdoc : doc ∈ w.db.documents) {v : DocumentVersion}
    (h : headVersion w.db doc = some v) : Synced env w doc v := by
  rcases hs.headed doc hdoc with ⟨hnone, -⟩ | ⟨u, hu⟩
  · rw [headVersion_of_none hnone] at h
    cases h
  · rw [headVersion_of_synced hs hu] at h
    exact Option.some.inj h ▸ hu

theorem writes_overwriteHead {body : Text} (hbody : (encode body).isSome = true) :
    Moves (Evolves env) (Grows env) (overwriteHead env pk body origin) := by
  obtain ⟨text, htext⟩ := Option.isSome_iff_exists.mp hbody
  intro w
  cases h : Table.get Document.id w.db.documents pk with
  | none =>
    rw [overwriteHead_noDocument h]
    exact Grows.refl env w
  | some doc =>
    have hpk : doc.id = pk := Table.key_of_get h
    cases hhead : headVersion w.db doc with
    | none =>
      rw [overwriteHead_none h hhead]
      exact Grows.refl env w
    | some v =>
      rw [overwriteHead_some h hhead htext, ← hpk]
      intro hs
      have hdoc := Table.get_mem h
      exact evolves_overwritten hdoc (synced_of_head hs hdoc hhead) hs

end Versions

/-! ### Writing -/

theorem encode_ofStr (s : Str) : encode (Text.ofStr s) = some s := by
  induction s with
  | nil => rfl
  | cons c s ih =>
    rw [Text.ofStr] at ih ⊢
    rw [List.map_cons, encode, ih]
    rfl

theorem encode_isSome_iff (t : Text) :
    (encode t).isSome = true ↔ ∀ p ∈ t, ∃ c, p = .char c := by
  induction t with
  | nil => simp [encode]
  | cons p t ih =>
    cases p with
    | char c => simp [encode, ih]
    | surrogate n => simp [encode]

theorem mem_strip {t : Text} {p : CodePoint} (h : p ∈ t.strip) : p ∈ t := by
  have hback := List.mem_reverse.mp h
  have hfront := (List.dropWhile_sublist _).mem hback
  exact (List.dropWhile_sublist _).mem (List.mem_reverse.mp hfront)

/-- What is appended can be encoded when the body can. -/
theorem encode_appended {body : Text} (head : Str) (h : (encode body).isSome = true) :
    (encode (appended head body)).isSome = true := by
  rw [encode_isSome_iff] at h ⊢
  intro p hp
  have hmem := (List.dropWhile_sublist _).mem hp
  simp only [List.mem_append, Text.ofStr, List.mem_map] at hmem
  rcases hmem with (⟨c, -, rfl⟩ | hbody) | ⟨c, -, rfl⟩
  · exact ⟨c, rfl⟩
  · exact h p (mem_strip hbody)
  · exact ⟨c, rfl⟩

/-- A write in place needs a body that can be encoded. -/
def WriteMode.inPlace : WriteMode → Bool
  | .overwrite | .append => true
  | _ => false

/-! ### New documents -/

theorem face_withSlug (doc : Document) : face (doc.withSlug env) = face doc := by
  rw [Document.withSlug]
  by_cases hslug : doc.slug = []
  · rw [if_pos hslug]
    rfl
  · rw [if_neg hslug]

/-- A row as it is inserted: under the key it is given, without a version. -/
structure NewRow (row : ℕ → ℤ → Document) : Prop where
  id : ∀ id now, (row id now).id = id
  head : ∀ id now, (row id now).currentVersion = none
  number : ∀ id now, (row id now).version = 1

section Inserting

variable {w : World} {row : ℕ → ℤ → Document}

/-- The row `Document.objects.create` inserts. -/
def insertedRow (env : Env) (w : World) (row : ℕ → ℤ → Document) : Document :=
  (row w.db.nextDocument w.now).withSlug env

def World.withDocument (w : World) (doc : Document) : World where
  db := { w.db with
    documents := w.db.documents ++ [doc]
    nextDocument := w.db.nextDocument + 1 }
  disk := w.disk
  now := w.now + 1

theorem insertDocument_run (w : World) :
    insertDocument env row w =
      if keyTaken w.db (insertedRow env w row) = true then
        .error .integrityError { w with now := w.now + 1 }
      else .ok (insertedRow env w row).id (w.withDocument (insertedRow env w row)) := by
  have hrun : insertDocument env row w =
      (if keyTaken w.db (insertedRow env w row) = true then throw .integrityError
        else do
          modifyDb fun db =>
            { db with
              documents := db.documents ++ [insertedRow env w row]
              nextDocument := db.nextDocument + 1 }
          return (insertedRow env w row).id : Py ℕ) { w with now := w.now + 1 } := rfl
  rw [hrun]
  by_cases htaken : keyTaken w.db (insertedRow env w row) = true
  · rw [if_pos htaken, if_pos htaken]
    rfl
  · rw [if_neg htaken, if_neg htaken]
    rfl

theorem face_insertedRow (w : World) :
    face (insertedRow env w row) = face (row w.db.nextDocument w.now) := face_withSlug _

theorem NewRow.inserted_id (h : NewRow row) (w : World) :
    (insertedRow env w row).id = w.db.nextDocument :=
  (congrArg (fun f => f.1.1) (face_insertedRow w)).trans (h.id _ _)

theorem NewRow.inserted_head (h : NewRow row) (w : World) :
    (insertedRow env w row).currentVersion = none :=
  (congrArg (fun f => f.1.2.1) (face_insertedRow w)).trans (h.head _ _)

theorem NewRow.inserted_number (h : NewRow row) (w : World) :
    (insertedRow env w row).version = 1 :=
  (congrArg (fun f => f.1.2.2.1) (face_insertedRow w)).trans (h.number _ _)

theorem inserted_key (w : World) :
    (insertedRow env w row).key = (row w.db.nextDocument w.now).key :=
  congrArg (fun f => f.2.2) (face_insertedRow w)

theorem NewRow.grows (h : NewRow row) : Moves (Grows env) (Grows env) (insertDocument env row) := by
  intro w
  rw [insertDocument_run]
  by_cases htaken : keyTaken w.db (insertedRow env w row) = true
  · rw [if_pos htaken]
    exact grows_of_core rfl rfl le_rfl rfl List.prefix_rfl
  · rw [if_neg htaken]
    exact grows_insertDocument (h.inserted_id w) (h.inserted_head w) rfl rfl rfl rfl rfl

end Inserting

/-! ### Relations the additions move along -/

/-- A relation that holds along everything the service adds, and that a rollback keeps. -/
structure Admits (env : Env) (R : World → World → Prop) : Prop where
  refl : ∀ w, R w w
  trans : ∀ w w' w'', R w w' → R w' w'' → R w w''
  beside : ∀ w w', Aside w w' → R w w'
  rollback : ∀ w w', R w w' → R w { w' with db := w.db }
  version : ∀ pk file description origin,
    Moves R R (createNewVersion env pk file description origin)
  insert : ∀ row, NewRow row → Moves R R (insertDocument env row)

theorem growing (env : Env) : Admits env (Grows env) where
  refl := Grows.refl env
  trans _ _ _ := Grows.trans
  beside _ _ := Aside.grows
  rollback _ _ h := grows_rollback h.2
  version _ _ _ _ := grows_createNewVersion
  insert _ h := h.grows

variable {R : World → World → Prop}

theorem Admits.aside (h : Admits env R) {x : Py α} (hx : Moves Aside Aside x) : Moves R R x :=
  hx.weaken h.beside h.beside

theorem Admits.bind (h : Admits env R) {x : Py α} {f : α → Py β} (hx : Moves R R x)
    (hf : ∀ a, Moves R R (f a)) : Moves R R (x >>= f) :=
  Moves.bind hx hf h.trans (fun _ _ h => h) h.trans

/-- A transaction takes back the tables of a program that wrote no old file. -/
theorem Admits.atomic (h : Admits env R) {x : Py α} (hx : Moves R R x) : Moves R R (atomic x) := by
  intro w
  have hrun := hx w
  rw [CwStation.Documents.atomic]
  cases hcase : x w with
  | ok a w' =>
    rw [hcase] at hrun
    exact hrun
  | error e w' =>
    rw [hcase] at hrun
    exact h.rollback w w' hrun

theorem Admits.writeVersion (h : Admits env R) {pk : ℕ} {body : Text} {mode : WriteMode}
    {description : Str} {origin : Origin} {bypassLock : Bool} (hmode : mode.inPlace = false) :
    Moves R R (writeVersion env pk body mode description origin bypassLock) := by
  apply h.atomic
  apply h.bind (h.aside (aside_loadDocument pk))
  intro doc
  apply h.bind (h.aside aside_getDb)
  intro db
  apply h.bind (h.aside (aside_orRaise _))
  intro _
  cases mode with
  | newVersion => exact h.bind (h.aside (aside_mdFile body)) fun _ => h.version _ _ _ _
  | overwrite => cases hmode
  | append => cases hmode
  | appendVersion =>
    apply h.bind (h.aside aside_get)
    intro w
    exact h.bind (h.aside (aside_mdFile _)) fun _ => h.version _ _ _ _

theorem Admits.createDocument (h : Admits env R) (rb : Runbook) (body : Text) (fields : NewDocument)
    (origin : Origin) : Moves R R (createDocument env rb body fields origin) := by
  apply h.bind (h.aside (aside_orRaise _))
  intro _
  apply h.bind (h.aside aside_getDb)
  intro db
  apply h.bind (h.aside (aside_orRaise _))
  intro sec
  apply h.bind (h.insert _ ⟨fun _ _ => rfl, fun _ _ => rfl, fun _ _ => rfl⟩)
  intro pk
  apply h.bind (h.aside (aside_mdFile body))
  intro file
  exact h.bind (h.version _ _ _ _) fun _ => h.aside (aside_pure _)

theorem aside_updateMeta (p : Put) (sec : Option Section) (doc : Document) :
    Moves Aside Aside (p.updateMeta sec doc) := by
  rw [Put.updateMeta]
  by_cases htouch : p.touches doc = true
  · rw [if_pos htouch]
    exact aside_bind aside_timezoneNow fun now => aside_alterDocument fun _ => rfl
  · rw [if_neg htouch]
    exact aside_pure ()

theorem writes_writeVersion {pk : ℕ} {body : Text} {mode : WriteMode} {description : Str}
    {origin : Origin} {bypassLock : Bool} (hbody : mode.inPlace = true → (encode body).isSome = true) :
    Moves (Evolves env) (Grows env)
      (writeVersion env pk body mode description origin bypassLock) := by
  cases mode with
  | newVersion => exact grows_writes ((growing env).writeVersion rfl)
  | appendVersion => exact grows_writes ((growing env).writeVersion rfl)
  | overwrite =>
    apply writes_atomic
    apply writes_bind (grows_aside (aside_loadDocument pk))
    intro doc
    apply writes_bind (grows_aside aside_getDb)
    intro db
    exact writes_bind (grows_aside (aside_orRaise _)) fun _ => writes_overwriteHead (hbody rfl)
  | append =>
    apply writes_atomic
    apply writes_bind (grows_aside (aside_loadDocument pk))
    intro doc
    apply writes_bind (grows_aside aside_getDb)
    intro db
    apply writes_bind (grows_aside (aside_orRaise _))
    intro _
    apply writes_bind (grows_aside aside_get)
    intro w
    exact writes_overwriteHead (encode_appended _ (hbody rfl))

/-- The updates of `put_document` that write in place need a body that can be encoded. -/
def Put.encodable (p : Put) : Prop :=
  p.onExists.mode.inPlace = true → (encode p.body).isSome = true

/-- A rewrite of a head may be the last step but for the value returned. -/
theorem writes_return {x : Py α} (hx : Moves (Evolves env) (Grows env) x) (b : β) :
    Moves (Evolves env) (Grows env) (x >>= fun _ => pure b) :=
  hx.bind (fun _ => moves_pure (Evolves.refl env) b) (fun _ _ _ => Evolves.trans)
    (fun _ _ h => h) fun _ _ _ _ => False.elim

theorem writes_putDocument (p : Put) (hbody : p.encodable) :
    Moves (Evolves env) (Grows env) (putDocument env p) := by
  apply writes_bind (grows_aside aside_getDb)
  intro db
  apply writes_bind (grows_aside (aside_orRaise _))
  intro rb
  apply writes_atomic
  apply writes_bind (grows_aside aside_getDb)
  intro db
  cases findDocument db rb.id p.key with
  | none => exact grows_writes ((growing env).createDocument rb p.body _ p.origin)
  | some doc =>
    apply writes_bind (grows_aside aside_getDb)
    intro db
    apply writes_bind (grows_aside (aside_orRaise _))
    intro _
    apply writes_bind (grows_aside aside_getDb)
    intro db
    apply writes_bind (grows_aside (aside_orRaise _))
    intro sec
    apply writes_bind (grows_aside (aside_updateMeta p sec doc))
    intro _
    exact writes_return (writes_writeVersion hbody) doc.id

/-! ### Images -/

theorem aside_insertImage (document : ℕ) (data : Blob) (ext alt : Str) (actor : Option Actor) :
    Moves Aside Aside (insertImage document data ext alt actor) := by
  apply aside_bind aside_getDb
  intro db
  apply aside_bind aside_timezoneNow
  intro created
  exact aside_bind (aside_modifyDb fun _ => ⟨rfl, rfl, rfl, rfl⟩) fun _ => aside_pure _

theorem aside_attachImage (pk : ℕ) (data : Blob) (filename alt : Str) (actor : Option Actor) :
    Moves Aside Aside (attachImage env pk data filename alt actor) :=
  aside_bind (aside_loadDocument pk) fun _ => aside_insertImage _ _ _ _ _

theorem aside_cloneImages (target : ℕ) (actor : Option Actor) (images : List DocumentImage)
    (body : Str) : Moves Aside Aside (cloneImages env target actor images body) := by
  induction images generalizing body with
  | nil => exact aside_pure body
  | cons image images ih =>
    rw [cloneImages]
    by_cases hshown : serveUrl image.id <:+: body
    · rw [if_pos hshown]
      exact aside_bind (aside_insertImage _ _ _ _ _) fun pk => ih _
    · rw [if_neg hshown]
      exact ih body

theorem aside_cloneReferencedImages (body : Str) (source target : ℕ) (actor : Option Actor) :
    Moves Aside Aside (cloneReferencedImages env body source target actor) :=
  aside_bind aside_getDb fun _ => aside_cloneImages target actor _ body

/-! ### Archiving, restoring and copying -/

theorem aside_setArchived (pk : ℕ) (archivedAt : Option ℤ) (updated : ℤ) :
    Moves Aside Aside (modifyDb (setArchived pk archivedAt updated)) :=
  aside_alterDocument fun _ => rfl

theorem aside_archiveDocument (pk : ℕ) (actor : Option Actor) (bypassLock : Bool) :
    Moves Aside Aside (archiveDocument pk actor bypassLock) := by
  apply aside_bind (aside_loadDocument pk)
  intro doc
  apply aside_bind aside_getDb
  intro db
  apply aside_bind (aside_orRaise _)
  intro _
  cases doc.isArchived with
  | true => exact aside_pure ()
  | false => exact aside_bind aside_timezoneNow fun now => aside_setArchived pk _ now

theorem aside_unarchiveDocument (pk : ℕ) (actor : Option Actor) (bypassLock : Bool) :
    Moves Aside Aside (unarchiveDocument pk actor bypassLock) := by
  apply aside_bind (aside_loadDocument pk)
  intro doc
  apply aside_bind aside_getDb
  intro db
  apply aside_bind (aside_orRaise _)
  intro _
  cases doc.isArchived with
  | true => exact aside_bind aside_timezoneNow fun now => aside_setArchived pk _ now
  | false => exact aside_pure ()

theorem Admits.restoreVersion (h : Admits env R) (pk version : ℕ) (origin : Origin) (bypassLock : Bool) :
    Moves R R (restoreVersion env pk version origin bypassLock) := by
  apply h.bind (h.aside (aside_loadDocument pk))
  intro doc
  apply h.bind (h.aside aside_getDb)
  intro db
  cases db.versions.find? fun v => v.document = doc.id ∧ v.version = version with
  | none => exact h.aside (aside_throw _)
  | some old => exact h.bind (h.aside aside_get) fun w => h.writeVersion rfl

theorem isSome_encode_ofStr (s : Str) : (encode (Text.ofStr s)).isSome = true := by
  rw [encode_ofStr]
  rfl

theorem writes_rewriteCopy (c : Copy) (target : ℕ) (body rewritten : Str) :
    Moves (Evolves env) (Grows env) (rewriteCopy env c target body rewritten) := by
  rw [rewriteCopy]
  by_cases hsame : rewritten ≠ body
  · rw [if_pos hsame]
    exact writes_writeVersion fun _ => isSome_encode_ofStr rewritten
  · rw [if_neg hsame]
    exact grows_writes (grows_aside (aside_pure ()))

/-- A copy is no transaction: what the put has written stays. -/
theorem evolves_copyDocument (c : Copy) :
    Moves (Evolves env) (Evolves env) (copyDocument env c) := by
  have hgrows : ∀ {γ : Type} {x : Py γ}, Moves (Grows env) (Grows env) x →
      Moves (Evolves env) (Evolves env) x := fun hx => writes_evolves (grows_writes hx)
  apply evolves_bind (hgrows (grows_aside (aside_loadDocument c.source)))
  intro src
  apply evolves_bind (hgrows (grows_aside aside_getDb))
  intro db
  apply evolves_bind (hgrows (grows_aside (aside_orRaise _)))
  intro _
  apply evolves_bind (hgrows (grows_aside aside_getDb))
  intro db
  apply evolves_bind (hgrows (grows_aside (aside_orRaise _)))
  intro rb
  apply evolves_bind (hgrows (grows_aside aside_get))
  intro w
  apply evolves_bind (writes_evolves (writes_putDocument _ fun _ => isSome_encode_ofStr _))
  intro target
  apply evolves_bind (hgrows (grows_aside (aside_cloneReferencedImages _ _ _ _)))
  intro rewritten
  exact evolves_bind (writes_evolves (writes_rewriteCopy _ _ _ _)) fun _ => hgrows (grows_aside (aside_pure _))

/-! ### Cloning a runbook -/

theorem aside_insertRunbook (row : ℕ → Runbook) :
    Moves Aside Aside (insertRunbook row) := by
  apply aside_bind aside_getDb
  intro db
  by_cases htaken : (db.runbooks.any fun r => r.slug = (row db.nextRunbook).slug) = true
  · simp only [htaken]
    exact aside_throw _
  · simp only [htaken]
    exact aside_bind (aside_modifyDb fun _ => ⟨rfl, rfl, rfl, rfl⟩) fun _ => aside_pure _

theorem aside_insertSection (row : ℕ → Section) :
    Moves Aside Aside (insertSection row) := by
  apply aside_bind aside_getDb
  intro db
  exact aside_bind (aside_modifyDb fun _ => ⟨rfl, rfl, rfl, rfl⟩) fun _ => aside_pure _

theorem aside_cloneSections (target : ℕ) (sections : List Section) :
    Moves Aside Aside (cloneSections target sections) := by
  induction sections with
  | nil => exact aside_pure []
  | cons sec sections ih =>
    apply aside_bind (aside_insertSection _)
    intro copy
    exact aside_bind ih fun _ => aside_pure _

theorem Admits.clonePage (h : Admits env R) (target : ℕ) (sectionMap : List (ℕ × ℕ)) (copyLocked : Bool)
    (actor : Option Actor) (doc : Document) :
    Moves R R (clonePage env target sectionMap copyLocked actor doc) := by
  apply h.bind (h.insert _ ⟨fun _ _ => rfl, fun _ _ => rfl, fun _ _ => rfl⟩)
  intro pk
  apply h.bind (h.aside aside_get)
  intro w
  exact h.bind (h.aside (aside_cloneReferencedImages _ _ _ _)) fun body => h.version _ _ _ _

theorem Admits.clonePages (h : Admits env R) (target : ℕ) (sectionMap : List (ℕ × ℕ)) (copyLocked : Bool)
    (actor : Option Actor) (docs : List Document) :
    Moves R R (clonePages env target sectionMap copyLocked actor docs) := by
  induction docs with
  | nil => exact h.aside (aside_pure ())
  | cons doc docs ih => exact h.bind (h.clonePage _ _ _ _ _) fun _ => ih

theorem Admits.cloneRunbook (h : Admits env R) (c : Clone) : Moves R R (cloneRunbook env c) := by
  apply h.atomic
  apply h.bind (h.aside aside_getDb)
  intro db
  apply h.bind (h.aside (aside_orRaise _))
  intro src
  apply h.bind (h.aside aside_getDb)
  intro db
  apply h.bind (h.aside (aside_insertRunbook _))
  intro target
  apply h.bind (h.aside (aside_cloneSections _ _))
  intro sectionMap
  apply h.bind (h.aside aside_getDb)
  intro db
  exact h.bind (h.clonePages _ _ _ _ _) fun _ => h.aside (aside_pure _)

end CwStation.Documents
