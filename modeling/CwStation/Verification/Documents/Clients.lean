import CwStation.Verification.Documents.Writable

/-! # Clients of one document

The optimistic lock compares version numbers. A put that moves the number is seen by every
client; a put in place is not. -/

namespace CwStation.Documents

open Effects

variable {env : Env} {α β : Type} {R : World → World → Prop}

/-! ### Rules for whole runs -/

/-- A relation that holds along every operation. -/
structure Stable (env : Env) (R : World → World → Prop) : Prop extends Admits env R where
  overwrite : ∀ pk body origin, Moves R R (overwriteHead env pk body origin)
  prune : ∀ policy pk w, R w (endState (pruneVersions policy pk) w)
  delete : ∀ pk w, R w { w with db := deleteDocument pk w.db }

theorem Stable.writeVersion (h : Stable env R) (pk : ℕ) (body : Text) (mode : WriteMode)
    (description : Str) (origin : Origin) (bypassLock : Bool) :
    Moves R R (writeVersion env pk body mode description origin bypassLock) := by
  apply h.atomic
  apply h.bind (h.aside (aside_loadDocument pk))
  intro doc
  apply h.bind (h.aside aside_getDb)
  intro db
  apply h.bind (h.aside (aside_orRaise _))
  intro _
  cases mode with
  | newVersion => exact h.bind (h.aside (aside_mdFile body)) fun _ => h.version _ _ _ _
  | overwrite => exact h.overwrite pk body origin
  | append =>
    apply h.bind (h.aside aside_get)
    intro w
    exact h.overwrite pk _ origin
  | appendVersion =>
    apply h.bind (h.aside aside_get)
    intro w
    exact h.bind (h.aside (aside_mdFile _)) fun _ => h.version _ _ _ _

theorem Stable.putDocument (h : Stable env R) (p : Put) : Moves R R (putDocument env p) := by
  apply h.bind (h.aside aside_getDb)
  intro db
  apply h.bind (h.aside (aside_orRaise _))
  intro rb
  apply h.atomic
  apply h.bind (h.aside aside_getDb)
  intro db
  cases findDocument db rb.id p.key with
  | none => exact h.createDocument rb p.body _ p.origin
  | some doc =>
    apply h.bind (h.aside aside_getDb)
    intro db
    apply h.bind (h.aside (aside_orRaise _))
    intro _
    apply h.bind (h.aside aside_getDb)
    intro db
    apply h.bind (h.aside (aside_orRaise _))
    intro sec
    apply h.bind (h.aside (aside_updateMeta p sec doc))
    intro _
    exact h.bind (h.writeVersion _ _ _ _ _ _) fun _ => h.aside (aside_pure _)

theorem Stable.copyDocument (h : Stable env R) (c : Copy) : Moves R R (copyDocument env c) := by
  apply h.bind (h.aside (aside_loadDocument c.source))
  intro src
  apply h.bind (h.aside aside_getDb)
  intro db
  apply h.bind (h.aside (aside_orRaise _))
  intro _
  apply h.bind (h.aside aside_getDb)
  intro db
  apply h.bind (h.aside (aside_orRaise _))
  intro rb
  apply h.bind (h.aside aside_get)
  intro w
  apply h.bind (h.putDocument _)
  intro target
  apply h.bind (h.aside (aside_cloneReferencedImages _ _ _ _))
  intro rewritten
  refine h.bind ?_ fun _ => h.aside (aside_pure _)
  rw [rewriteCopy]
  by_cases hsame : rewritten ≠ w.readHead src
  · rw [if_pos hsame]
    exact h.writeVersion _ _ _ _ _ _
  · rw [if_neg hsame]
    exact h.aside (aside_pure ())

theorem Stable.perform (h : Stable env R) (op : Op) (w : World) : R w (op.perform env w) := by
  cases op with
  | create runbook body fields origin =>
    refine Moves.endState ?_ w
    apply h.bind (h.aside aside_getDb)
    intro db
    apply h.bind (h.aside (aside_orRaise _))
    intro rb
    exact h.bind (h.createDocument rb body fields origin) fun _ => h.aside (aside_pure _)
  | put p =>
    rw [Op.perform, Op.program, endState_bind_pure]
    exact (h.putDocument p).endState w
  | write document body mode description origin bypassLock =>
    exact (h.writeVersion _ _ _ _ _ _).endState w
  | restore document version origin bypassLock =>
    exact (h.restoreVersion _ _ _ _).endState w
  | copy c =>
    rw [Op.perform, Op.program, endState_bind_pure]
    exact (h.copyDocument c).endState w
  | clone c =>
    rw [Op.perform, Op.program, endState_bind_pure]
    exact (h.cloneRunbook c).endState w
  | importBundle bundle args =>
    rw [Op.perform, Op.program, endState_bind_pure]
    exact (h.importBundle bundle args).endState w
  | attach document data filename alt actor =>
    rw [Op.perform, Op.program, endState_bind_pure]
    exact (h.aside (aside_attachImage _ _ _ _ _)).endState w
  | archive document actor bypassLock =>
    exact (h.aside (aside_archiveDocument _ _ _)).endState w
  | unarchive document actor bypassLock =>
    exact (h.aside (aside_unarchiveDocument _ _ _)).endState w
  | prune policy document =>
    rw [Op.perform, Op.program, endState_bind_pure]
    exact h.prune policy document w
  | expire policy document =>
    refine Moves.endState ?_ w
    apply h.bind (h.aside (aside_loadDocument document))
    intro doc
    by_cases hdelete : policy.onExpire = "delete".toList
    · rw [if_pos hdelete]
      exact moves_modify fun w => h.delete doc.id w
    · rw [if_neg hdelete]
      exact h.aside (aside_bind aside_timezoneNow fun now => aside_setArchived _ _ _)
  | elapse microseconds => exact h.beside _ _ ⟨rfl, rfl, rfl, rfl, rfl⟩

theorem Stable.run (h : Stable env R) (ops : List Op) (w : World) : R w (run env ops w) := by
  induction ops generalizing w with
  | nil => exact h.refl w
  | cons op ops ih => exact h.trans _ _ _ (h.perform op w) (ih _)

/-! ### Tidy states -/

/-- Heads stand under their documents' numbers, a document without a head has its first number,
and every version has its file. -/
structure Tidy (w : World) : Prop where
  heads : Heads (fun _ => True) w.db
  stored : ∀ v ∈ w.db.versions, v.file < w.disk.length

/-- A step from which tidy states come, with or without its tables. -/
structure Tidies (w w' : World) : Prop where
  tidy : Tidy w → Tidy w'
  disk : w.disk.length ≤ w'.disk.length

theorem Tidies.of_steady {w w' : World} (h : Steady w w') (hdisk : w.disk.length ≤ w'.disk.length)
    (hfiles : ∀ v' ∈ w'.db.versions,
      (∃ v ∈ w.db.versions, v'.file = v.file) ∨ v'.file < w'.disk.length) : Tidies w w' where
  tidy hw :=
    { heads := h.heads _ hw.heads
      stored := by
        intro v' hv'
        rcases hfiles v' hv' with ⟨v, hv, hfile⟩ | hlt
        · rw [hfile]
          exact lt_of_lt_of_le (hw.stored v hv) hdisk
        · exact hlt }
  disk := hdisk

theorem Tidies.of_db {w w' : World} (hdb : w'.db = w.db)
    (hdisk : w.disk.length ≤ w'.disk.length) : Tidies w w' :=
  Tidies.of_steady (Steady.of_db hdb) hdisk fun v' hv' => .inl ⟨v', hdb ▸ hv', rfl⟩

theorem tidies_createNewVersion (pk : ℕ) (file description : Str) (origin : Origin) :
    Moves Tidies Tidies (createNewVersion env pk file description origin) := by
  intro w
  cases h : Table.get Document.id w.db.documents pk with
  | none =>
    rw [createNewVersion_none h]
    exact Tidies.of_db rfl le_rfl
  | some doc =>
    have hsteady : Moves Steady Steady (createNewVersion env pk file description origin) :=
      steady_createNewVersion
    have hrun := hsteady w
    rw [createNewVersion_some h] at hrun ⊢
    have hlt : w.disk.length < (w.disk ++ [file]).length := by simp
    by_cases hdup : (w.db.versions.any fun v =>
        v.document = pk && v.version = nextVersionNumber w.db doc) = true
    · rw [if_pos hdup]
      exact Tidies.of_db rfl hlt.le
    · rw [if_neg hdup] at hrun ⊢
      refine Tidies.of_steady hrun hlt.le fun v hv => ?_
      rw [withVersion_versions] at hv
      rcases List.mem_append.mp hv with hv | hv
      · exact .inl ⟨v, hv, rfl⟩
      · rw [List.mem_singleton.mp hv]
        exact .inr hlt

theorem tidies_overwriteHead (pk : ℕ) (body : Text) (origin : Origin) :
    Moves Tidies Tidies (overwriteHead env pk body origin) := by
  intro w
  have hsteady : Moves Steady Steady (overwriteHead env pk body origin) :=
    steady_overwriteHead pk body origin
  have hrun := hsteady w
  cases h : Table.get Document.id w.db.documents pk with
  | none =>
    rw [overwriteHead_noDocument h]
    exact Tidies.of_db rfl le_rfl
  | some doc =>
    cases hhead : headVersion w.db doc with
    | none =>
      rw [overwriteHead_none h hhead]
      exact Tidies.of_db rfl le_rfl
    | some v =>
      cases htext : encode body with
      | none =>
        rw [overwriteHead_unencodable h hhead htext]
        exact Tidies.of_db rfl List.length_set.ge
      | some text =>
        have hpk : doc.id = pk := Table.key_of_get h
        subst hpk
        rw [overwriteHead_some h hhead htext] at hrun ⊢
        refine Tidies.of_steady hrun List.length_set.ge fun v' hv' => ?_
        obtain ⟨u, hu, -, -, -, hfile, -⟩ := mem_versions_overwritten hv'
        exact .inl ⟨u, hu, hfile⟩

theorem tidies_insertDocument {row : ℕ → ℤ → Document} (h : NewRow row) :
    Moves Tidies Tidies (insertDocument env row) := by
  intro w
  rw [insertDocument_run]
  by_cases htaken : keyTaken w.db (insertedRow env w row) = true
  · rw [if_pos htaken]
    exact Tidies.of_db rfl le_rfl
  · rw [if_neg htaken]
    exact
      { tidy := fun hw =>
          { heads := hw.heads.withDocument (h.inserted_id w) (h.inserted_head w)
              (h.inserted_number w) (fun _ => id) fun _ => trivial
            stored := hw.stored }
        disk := le_rfl }

/-- Tidy states stay tidy, whatever is done. -/
theorem tidies_stable (env : Env) : Stable env Tidies where
  refl _ := Tidies.of_db rfl le_rfl
  trans _ _ _ h h' := ⟨fun hw => h'.tidy (h.tidy hw), h.disk.trans h'.disk⟩
  beside _ _ h := Tidies.of_steady h.steady (congrArg List.length h.disk).ge fun v' hv' =>
    .inl ⟨v', h.versions ▸ hv', rfl⟩
  rollback _ _ h := Tidies.of_db rfl h.disk
  version := tidies_createNewVersion
  insert _ h := tidies_insertDocument h
  overwrite := tidies_overwriteHead
  prune policy pk w := by
    cases h : Table.get Document.id w.db.documents pk with
    | none =>
      rw [endState_pruneVersions_none policy h]
      exact Tidies.of_db rfl le_rfl
    | some doc =>
      have hheads := fun hw : Tidy w => hw.heads.pruneVersions policy pk
      rw [endState_pruneVersions policy h] at hheads ⊢
      exact
        { tidy := fun hw =>
            { heads := hheads hw
              stored := fun v hv => hw.stored v (List.mem_of_mem_filter hv) }
          disk := le_rfl }
  delete pk w :=
    { tidy := fun hw =>
        { heads := hw.heads.deleteDocument pk
          stored := fun v hv => hw.stored v (List.mem_of_mem_filter hv) }
      disk := le_rfl }

theorem World.Site.tidy {w : World} (h : w.Site) : Tidy w where
  heads := h.headful.weaken fun _ => False.elim
  stored := h.versions ▸ fun _ hv => absurd hv List.not_mem_nil

theorem tidy_run (env : Env) {w : World} (ops : List Op) (h : w.Site) : Tidy (run env ops w) :=
  ((tidies_stable env).run ops w).tidy h.tidy

/-! ### What a put does to what clients see -/

/-- The document under a key of a runbook. -/
def World.document (w : World) (runbook key : Str) : Option Document :=
  (Table.get Runbook.slug w.db.runbooks runbook).bind fun rb => findDocument w.db rb.id key

theorem document_some {w : World} {runbook key : Str} {doc : Document}
    (h : w.document runbook key = some doc) :
    ∃ rb, resolveRunbook w.db runbook = .ok rb ∧ findDocument w.db rb.id key = some doc ∧
      Table.get Runbook.slug w.db.runbooks runbook = some rb := by
  obtain ⟨rb, hrb, hdoc⟩ := Option.bind_eq_some_iff.mp h
  refine ⟨rb, ?_, hdoc, hrb⟩
  rw [resolveRunbook, hrb]

/-- A put that does not move the number: in place on a head, or the first version. -/
def Put.KeepsNumber (p : Put) (w : World) (doc : Document) : Prop :=
  p.onExists.mode.inPlace = (headVersion w.db doc).isSome

/-- The text a put would store. -/
def Put.stored (p : Put) (w : World) (doc : Document) : Option Str :=
  encode (p.onExists.mode.text (w.readHead doc) p.body)

/-- What a put may make of the number and the text that clients see: it leaves them, or moves
the number on, or it passes the checks and puts its text, or none at all, under the number. -/
def Seen (p : Put) (w : World) (doc : Document) (version : ℕ) (text : Str) : Prop :=
  (version = doc.version ∧ text = w.readHead doc) ∨ doc.version < version ∨
    (version = doc.version ∧ p.checks w.db doc = .ok () ∧ p.KeepsNumber w doc ∧
      (p.stored w doc = none ∨ p.stored w doc = some text))

section Effect

variable {w : World} {doc : Document}

theorem findDocument_alter {db : Db} {rb : ℕ} {key : Str} {pk : ℕ} {update : Document → Document}
    (hupdate : ∀ d, (update d).runbook = d.runbook ∧ (update d).key = d.key) :
    findDocument { db with documents := Table.alter Document.id pk update db.documents } rb key =
      (findDocument db rb key).map fun d => if d.id = pk then update d else d := by
  rw [findDocument, findDocument]
  show (db.documents.map _).find? _ = _
  induction db.documents with
  | nil => rfl
  | cons d docs ih =>
    have hsame : ((if d.id = pk then update d else d).runbook = some rb ∧
        (if d.id = pk then update d else d).key = some key) ↔
          (d.runbook = some rb ∧ d.key = some key) := by
      by_cases hpk : d.id = pk
      · rw [if_pos hpk, (hupdate d).1, (hupdate d).2]
      · rw [if_neg hpk]
    rw [List.map_cons, List.find?_cons, List.find?_cons]
    by_cases hfound : d.runbook = some rb ∧ d.key = some key
    · rw [decide_eq_true (hsame.mpr hfound), decide_eq_true hfound]
      rfl
    · rw [decide_eq_false fun h => hfound (hsame.mp h), decide_eq_false hfound]
      exact ih

/-- The document is found again after an update of its row. -/
theorem document_alter {w' : World} {runbook key : Str} {update : Document → Document}
    (hdoc : w.document runbook key = some doc)
    (hrunbooks : w'.db.runbooks = w.db.runbooks)
    (hdocuments : w'.db.documents = Table.alter Document.id doc.id update w.db.documents)
    (hupdate : ∀ d, (update d).runbook = d.runbook ∧ (update d).key = d.key) :
    w'.document runbook key = some (update doc) := by
  obtain ⟨rb, -, hfind, hget⟩ := document_some hdoc
  have hsame : findDocument w'.db rb.id key = findDocument
      { w.db with documents := Table.alter Document.id doc.id update w.db.documents } rb.id key := by
    rw [findDocument, findDocument, hdocuments]
  rw [World.document, hrunbooks, hget, Option.bind_some, hsame, findDocument_alter hupdate, hfind,
    Option.map_some, if_pos rfl]

theorem Tidy.head_cases (hw : Tidy w) (hdoc : doc ∈ w.db.documents) (hkey : doc.key ≠ none) :
    (headVersion w.db doc = none ∧ doc.version = 1) ∨
      ∃ v ∈ w.db.versions, headVersion w.db doc = some v ∧ v.version = doc.version := by
  rcases hw.heads.heads doc hdoc hkey with ⟨v, hv, hpoints, -, hnumber⟩ | ⟨-, hnone, hone⟩
  · refine .inr ⟨v, hv, ?_, hnumber⟩
    rw [headVersion, hpoints, Option.bind_some, Table.get_of_mem hw.heads.versions hv]
  · exact .inl ⟨headVersion_of_none hnone, hone⟩

theorem readHead_withVersion (env : Env) (hw : Tidy w) (text description : Str) (origin : Origin) :
    (w.withVersion env doc text description origin).readHead
      (withHead (newRow env w doc text description origin) w.now doc) = text := by
  have hfresh : Table.get DocumentVersion.id w.db.versions w.db.nextVersion = none :=
    Table.get_eq_none_iff.mpr fun v hv => (hw.heads.freshVersion v hv).ne
  have hhead : headVersion (w.withVersion env doc text description origin).db
      (withHead (newRow env w doc text description origin) w.now doc) =
        some (newRow env w doc text description origin) := by
    have hrow : (newRow env w doc text description origin).id = w.db.nextVersion := rfl
    rw [headVersion, withHead, Option.bind_some, withVersion_versions, Table.get_append, hrow,
      hfresh, if_pos rfl]
    rfl
  rw [World.readHead, hhead]
  exact fileText_newRow

theorem readHead_overwritten (env : Env) (hw : Tidy w) {v : DocumentVersion}
    (hhead : headVersion w.db doc = some v) (text : Str) (origin : Origin) :
    (w.overwritten env doc.id v text origin).readHead
      (withText (stripFrontmatter env.unicode text) w.now doc) = text := by
  obtain ⟨pk, hpoints, hget⟩ := Option.bind_eq_some_iff.mp hhead
  have hpk : v.id = pk := Table.key_of_get hget
  have hv := Table.get_mem hget
  have hhead' : headVersion (w.overwritten env doc.id v text origin).db
      (withText (stripFrontmatter env.unicode text) w.now doc) =
        some (rewritten (stripFrontmatter env.unicode text) origin v) := by
    have hcurrent : (withText (stripFrontmatter env.unicode text) w.now doc).currentVersion =
        some pk := hpoints
    have hversions : (w.overwritten env doc.id v text origin).db.versions =
        Table.alter DocumentVersion.id v.id
          (rewritten (stripFrontmatter env.unicode text) origin) w.db.versions := rfl
    have hid : ∀ u, (rewritten (stripFrontmatter env.unicode text) origin u).id = u.id :=
      fun _ => rfl
    rw [headVersion, hcurrent, Option.bind_some, hversions, Table.get_alter hid, if_pos hpk.symm,
      hpk, hget]
    rfl
  have hlt := hw.stored v hv
  rw [World.readHead, hhead']
  simp [World.fileText, World.overwritten, rewritten, hlt]

/-- The number and the text after a write on a row of a tidy state. -/
theorem writeVersion_seen (env : Env) {runbook key : Str} {body : Text} {mode : WriteMode}
    {description : Str} {origin : Origin} {bypassLock : Bool} (hw : Tidy w)
    (hdoc : w.document runbook key = some doc) {w' : World}
    (hrun : writeVersion env doc.id body mode description origin bypassLock w = .ok () w') :
    ∃ doc', w'.document runbook key = some doc' ∧
      ((mode.inPlace = (headVersion w.db doc).isSome ∧ doc'.version = doc.version ∧
        encode (mode.text (w.readHead doc) body) = some (w'.readHead doc')) ∨
      doc.version < doc'.version) := by
  obtain ⟨rb, -, hfind, -⟩ := document_some hdoc
  have hmem : doc ∈ w.db.documents := List.mem_of_find?_eq_some hfind
  have hkey : doc.key ≠ none := by simp [(key_of_findDocument hfind).2]
  have hget := Table.get_of_mem hw.heads.documents hmem
  cases hcheck : checkWritable w.db doc origin.actor bypassLock with
  | error e =>
    rw [writeVersion_refused hget hcheck] at hrun
    cases hrun
  | ok _ =>
    cases hmode : mode.inPlace with
    | true =>
      cases hhead : headVersion w.db doc with
      | none =>
        rw [writeVersion_allowed hget hcheck, if_pos hmode, atomic,
          overwriteHead_none hget hhead] at hrun
        cases hrun
      | some v =>
        cases htext : encode (mode.text (w.readHead doc) body) with
        | none =>
          rw [writeVersion_allowed hget hcheck, if_pos hmode, atomic,
            overwriteHead_unencodable hget hhead htext] at hrun
          cases hrun
        | some text =>
          rw [writeVersion_inPlace hget hcheck hmode hhead htext] at hrun
          obtain ⟨-, rfl⟩ := EStateM.Result.ok.inj hrun
          refine ⟨_, document_alter hdoc rfl rfl fun _ => ⟨rfl, rfl⟩, .inl ⟨rfl, rfl, ?_⟩⟩
          rw [readHead_overwritten env hw hhead]
    | false =>
      have hplace : ¬mode.inPlace = true := by simp [hmode]
      cases htext : encode (mode.text (w.readHead doc) body) with
      | none =>
        have hfail : mdFile (mode.text (w.readHead doc) body) w =
            .error .unicodeEncodeError w := by
          simp only [mdFile, htext]
          rfl
        rw [writeVersion_allowed hget hcheck, if_neg hplace, atomic,
          bind_of_error hfail] at hrun
        cases hrun
      | some text =>
        cases hdup : w.db.versions.any fun v =>
            v.document = doc.id && v.version = nextVersionNumber w.db doc with
        | true =>
          have hfile : mdFile (mode.text (w.readHead doc) body) w = .ok text w := by
            simp only [mdFile, htext]
            rfl
          rw [writeVersion_allowed hget hcheck, if_neg hplace, atomic, bind_of_ok hfile,
            createNewVersion_some hget, hdup, if_pos rfl] at hrun
          cases hrun
        | false =>
          rw [writeVersion_snapshot hget hcheck hmode htext hdup] at hrun
          obtain ⟨-, rfl⟩ := EStateM.Result.ok.inj hrun
          refine ⟨_, document_alter hdoc rfl rfl fun _ => ⟨rfl, rfl⟩, ?_⟩
          have hnumber : (withHead (newRow env w doc text description origin) w.now
              doc).version = nextVersionNumber w.db doc := rfl
          rcases hw.head_cases hmem hkey with ⟨hnone, hone⟩ | ⟨v, -, hsome, hversion⟩
          · refine .inl ⟨by rw [hnone]; rfl, ?_, ?_⟩
            · rw [hnumber, nextVersionNumber, hnone, hone]
            · rw [readHead_withVersion env hw]
          · refine .inr ?_
            rw [hnumber, nextVersionNumber, hsome, ← hversion]
            exact Nat.lt_succ_self _

/-- What a write that raises leaves of the files: those that stood, or an emptied head. -/
theorem writeVersion_files {body : Text} {mode : WriteMode} {description : Str} {origin : Origin}
    {bypassLock : Bool} {e : Exc} {w' : World}
    (hget : Table.get Document.id w.db.documents doc.id = some doc)
    (hrun : writeVersion env doc.id body mode description origin bypassLock w = .error e w') :
    w.disk <+: w'.disk ∨ (mode.inPlace = true ∧ encode (mode.text (w.readHead doc) body) = none ∧
      ∃ v, headVersion w.db doc = some v ∧ w'.disk = w.disk.set v.file []) := by
  cases hcheck : checkWritable w.db doc origin.actor bypassLock with
  | error e =>
    rw [writeVersion_refused hget hcheck] at hrun
    obtain ⟨-, rfl⟩ := EStateM.Result.error.inj hrun
    exact .inl List.prefix_rfl
  | ok _ =>
    cases hmode : mode.inPlace with
    | true =>
      cases hhead : headVersion w.db doc with
      | none =>
        rw [writeVersion_allowed hget hcheck, if_pos hmode, atomic,
          overwriteHead_none hget hhead] at hrun
        obtain ⟨-, rfl⟩ := EStateM.Result.error.inj hrun
        exact .inl List.prefix_rfl
      | some v =>
        cases htext : encode (mode.text (w.readHead doc) body) with
        | none =>
          rw [writeVersion_allowed hget hcheck, if_pos hmode, atomic,
            overwriteHead_unencodable hget hhead htext] at hrun
          obtain ⟨-, rfl⟩ := EStateM.Result.error.inj hrun
          exact .inr ⟨rfl, rfl, v, rfl, rfl⟩
        | some text =>
          rw [writeVersion_inPlace hget hcheck hmode hhead htext] at hrun
          cases hrun
    | false =>
      have hplace : ¬mode.inPlace = true := by simp [hmode]
      have hsnapshot := (growing env).bind
        ((growing env).aside (aside_mdFile (mode.text (w.readHead doc) body)))
        (fun file => (growing env).version doc.id file description origin) w
      rw [writeVersion_allowed hget hcheck, if_neg hplace, atomic] at hrun
      cases hcase : (do
          let file ← mdFile (mode.text (w.readHead doc) body)
          createNewVersion env doc.id file description origin : Py Unit) w with
      | ok a w₁ =>
        rw [hcase] at hrun
        cases hrun
      | error e₁ w₁ =>
        rw [hcase] at hrun hsnapshot
        obtain ⟨-, rfl⟩ := EStateM.Result.error.inj hrun
        exact .inl hsnapshot.2

/-- The files that stood give the same texts. -/
theorem readHead_of_grown {w' : World} (hw : Tidy w) (hdb : w'.db = w.db)
    (hdisk : w.disk <+: w'.disk) : w'.readHead doc = w.readHead doc := by
  rw [World.readHead, World.readHead, hdb]
  cases hhead : headVersion w.db doc with
  | none => rfl
  | some v =>
    obtain ⟨pk, -, hget⟩ := Option.bind_eq_some_iff.mp hhead
    exact fileText_of_grown hdisk (hw.stored v (Table.get_mem hget))

/-- What clients see after a put. -/
theorem put_seen (env : Env) {p : Put} (hw : Tidy w)
    (hdoc : w.document p.runbook p.key = some doc) :
    ∃ doc', (endState (putDocument env p) w).document p.runbook p.key = some doc' ∧
      Seen p w doc doc'.version ((endState (putDocument env p) w).readHead doc') := by
  obtain ⟨rb, hrb, hfind, -⟩ := document_some hdoc
  have hget := Table.get_of_mem hw.heads.documents (List.mem_of_find?_eq_some hfind)
  cases hchecks : p.checks w.db doc with
  | error e =>
    rw [endState_of_error (putDocument_refused hrb hfind hchecks)]
    exact ⟨doc, hdoc, .inl ⟨rfl, rfl⟩⟩
  | ok _ =>
    cases hsec : resolveSection w.db rb p.sec with
    | error e =>
      rw [endState_of_error (putDocument_noSection hrb hfind hchecks hsec)]
      exact ⟨doc, hdoc, .inl ⟨rfl, rfl⟩⟩
    | ok sec =>
      obtain ⟨update, now, hupdate, hface, -⟩ := update_run env p sec w doc
      have haside : Aside w (w.altered doc.id update now) := aside_altered hface now
      have htidy := ((tidies_stable env).beside _ _ haside).tidy hw
      have hkeys : ∀ d, (update d).runbook = d.runbook ∧ (update d).key = d.key := fun d =>
        ⟨congrArg (fun f => f.2.1) (hface d), congrArg (fun f => f.2.2) (hface d)⟩
      have hid : (update doc).id = doc.id := id_of_face (hface doc)
      have hnumber : (update doc).version = doc.version :=
        congrArg (fun f => f.1.2.2.1) (hface doc)
      have hhead := headVersion_aside haside (hface doc)
      have htext := readHead_aside haside (hface doc)
      have hrun : putDocument env p w = atomic (p.update env sec doc) w :=
        putDocument_update hrb hfind hchecks hsec
      rw [atomic, hupdate] at hrun
      cases hwrite : writeVersion env doc.id p.body p.onExists.mode [] p.origin p.bypassLock
          (w.altered doc.id update now) with
      | ok a w' =>
        rw [bind_of_ok hwrite] at hrun
        rw [endState_of_ok hrun]
        have hdoc' : (w.altered doc.id update now).document p.runbook p.key =
            some (update doc) := document_alter hdoc rfl rfl hkeys
        have hwrite' : writeVersion env (update doc).id p.body p.onExists.mode [] p.origin
            p.bypassLock (w.altered doc.id update now) = .ok () w' := by
          rw [hid]
          exact hwrite
        obtain ⟨doc', hfound, hseen⟩ := writeVersion_seen env htidy hdoc' hwrite'
        refine ⟨doc', hfound, ?_⟩
        rw [hhead, htext, hnumber] at hseen
        rcases hseen with ⟨hkeeps, hversion, hstored⟩ | hlt
        · exact .inr (.inr ⟨hversion, hchecks, hkeeps, .inr hstored⟩)
        · exact .inr (.inl hlt)
      | error e w' =>
        rw [bind_of_error hwrite] at hrun
        rw [endState_of_error hrun]
        refine ⟨doc, hdoc, ?_⟩
        have hget' : Table.get Document.id (w.altered doc.id update now).db.documents
            (update doc).id = some (update doc) := by
          rw [hid]
          exact get_altered (fun d => id_of_face (hface d)) now hget
        have hwrite' : writeVersion env (update doc).id p.body p.onExists.mode [] p.origin
            p.bypassLock (w.altered doc.id update now) = .error e w' := by
          rw [hid]
          exact hwrite
        rcases writeVersion_files hget' hwrite' with hdisk | ⟨hplace, hnone, v, hv, hdisk⟩
        · exact .inl ⟨rfl, readHead_of_grown hw rfl hdisk⟩
        · rw [hhead] at hv
          rw [htext] at hnone
          refine .inr (.inr ⟨rfl, hchecks, ?_, .inl hnone⟩)
          rw [Put.KeepsNumber, hplace, hv]
          rfl

end Effect

/-! ### Clients -/

/-- Clients of the document under a key, each with the version and the body it has read. The row
lock makes their calls follow each other. -/
structure Clients where
  runbook : Str
  key : Str
  world : World
  reads : ℕ → Option (ℕ × Str)

inductive ClientStep
  | read (client : ℕ)
  | put (client : ℕ) (p : Put)

/-- A client's put: on the document, expecting the version the client has read. -/
def Clients.addressed (s : Clients) (p : Put) (version : ℕ) : Put :=
  { p with runbook := s.runbook, key := s.key, expectedVersion := some version }

def Clients.document (s : Clients) : Option Document := s.world.document s.runbook s.key

/-- A read takes the version and the body; a put uses them up. -/
def Clients.step (env : Env) (s : Clients) : ClientStep → Clients
  | .read client =>
      match s.document with
      | none => s
      | some doc =>
          { s with
            reads := Function.update s.reads client (some (doc.version, s.world.readHead doc)) }
  | .put client p =>
      match s.reads client with
      | none => s
      | some (version, _) =>
          { s with
            world := endState (putDocument env (s.addressed p version)) s.world
            reads := Function.update s.reads client none }

def Clients.run (env : Env) (s : Clients) (steps : List ClientStep) : Clients :=
  steps.foldl (Clients.step env) s

def Clients.start (runbook key : Str) (w : World) : Clients where
  runbook := runbook
  key := key
  world := w
  reads _ := none

/-- A put that passes its checks and does not move the number stores the text that is there,
whenever another client holds a read of that number. -/
def ClientStep.Fits (s : Clients) : ClientStep → Prop
  | .read _ => True
  | .put client p =>
      ∀ version body doc, s.reads client = some (version, body) → s.document = some doc →
        (s.addressed p version).checks s.world.db doc = .ok () →
          (s.addressed p version).KeepsNumber s.world doc →
            (∃ other ≠ client, ∃ text, s.reads other = some (doc.version, text)) →
              (s.addressed p version).stored s.world doc = some (s.world.readHead doc)

def ClientsFit (env : Env) : List ClientStep → Clients → Prop
  | [], _ => True
  | step :: steps, s => step.Fits s ∧ ClientsFit env steps (s.step env step)

/-- What holds between the steps: no read is of a later version, and a read of the current one
is of the current body. -/
structure Clients.Current (s : Clients) : Prop where
  tidy : Tidy s.world
  reads : ∀ client version body, s.reads client = some (version, body) →
    ∃ doc, s.document = some doc ∧ version ≤ doc.version ∧
      (version = doc.version → body = s.world.readHead doc)

section Clients

variable {s : Clients}

theorem Clients.Current.read (h : s.Current) (client : ℕ) :
    (s.step env (.read client)).Current := by
  cases hdoc : s.document with
  | none =>
    have hstep : s.step env (.read client) = s := by simp only [Clients.step, hdoc]
    rw [hstep]
    exact h
  | some doc =>
    have hstep : s.step env (.read client) =
        { s with
          reads := Function.update s.reads client
            (some (doc.version, s.world.readHead doc)) } := by
      simp only [Clients.step, hdoc]
    rw [hstep]
    refine ⟨h.tidy, fun c version body hread => ?_⟩
    replace hread : Function.update s.reads client (some (doc.version, s.world.readHead doc)) c =
      some (version, body) := hread
    by_cases hc : c = client
    · rw [hc, Function.update_self] at hread
      obtain ⟨rfl, rfl⟩ := Prod.mk.inj (Option.some.inj hread)
      exact ⟨doc, hdoc, le_rfl, fun _ => rfl⟩
    · rw [Function.update_of_ne hc] at hread
      exact h.reads c version body hread

theorem Clients.Current.put (h : s.Current) {client : ℕ} {p : Put}
    (hfits : (ClientStep.put client p).Fits s) : (s.step env (.put client p)).Current := by
  cases hread : s.reads client with
  | none =>
    have hstep : s.step env (.put client p) = s := by simp only [Clients.step, hread]
    rw [hstep]
    exact h
  | some r =>
    obtain ⟨version, body⟩ := r
    have hstep : s.step env (.put client p) =
        { s with
          world := endState (putDocument env (s.addressed p version)) s.world
          reads := Function.update s.reads client none } := by
      simp only [Clients.step, hread]
    obtain ⟨doc, hdoc, -, -⟩ := h.reads client version body hread
    obtain ⟨doc', hdoc', hseen⟩ := put_seen env (p := s.addressed p version) h.tidy hdoc
    rw [hstep]
    refine ⟨(((tidies_stable env).putDocument _).endState s.world).tidy h.tidy,
      fun c version' body' hread' => ?_⟩
    replace hread' : Function.update s.reads client none c = some (version', body') := hread'
    have hc : c ≠ client := by
      intro hc
      rw [hc, Function.update_self] at hread'
      cases hread'
    rw [Function.update_of_ne hc] at hread'
    obtain ⟨d, hd, hle, hcurrent⟩ := h.reads c version' body' hread'
    have heq : d = doc := Option.some.inj (hd.symm.trans hdoc)
    subst heq
    refine ⟨doc', hdoc', ?_⟩
    rcases hseen with ⟨hversion, htext⟩ | hlt | ⟨hversion, hchecks, hkeeps, hstored⟩
    · rw [hversion, htext]
      exact ⟨hle, hcurrent⟩
    · exact ⟨by omega, fun heq => by omega⟩
    · rw [hversion]
      refine ⟨hle, fun heq => ?_⟩
      have hsame := hfits version body d hread hd hchecks hkeeps
        ⟨c, hc, body', heq ▸ hread'⟩
      rcases hstored with hnone | hsome
      · rw [hsame] at hnone
        cases hnone
      · rw [hcurrent heq]
        exact Option.some.inj (hsame.symm.trans hsome)

theorem Clients.Current.run {steps : List ClientStep} (h : s.Current)
    (hfits : ClientsFit env steps s) : (s.run env steps).Current := by
  induction steps generalizing s with
  | nil => exact h
  | cons step steps ih =>
    cases step with
    | read client => exact ih (h.read client) hfits.2
    | put client p => exact ih (h.put hfits.1) hfits.2

/-- A put that succeeds expected the version of the document that stands. -/
theorem version_of_put_ok {w w' : World} {p : Put} {doc : Document} {version pk : ℕ}
    (hdoc : w.document p.runbook p.key = some doc) (hexpected : p.expectedVersion = some version)
    (hrun : putDocument env p w = .ok pk w') : doc.version = version := by
  obtain ⟨rb, hrb, hfind, -⟩ := document_some hdoc
  cases hchecks : p.checks w.db doc with
  | error e =>
    rw [putDocument_refused hrb hfind hchecks] at hrun
    cases hrun
  | ok _ =>
    by_contra hne
    rw [Put.checks] at hchecks
    cases hcheck : checkWritable w.db doc p.origin.actor p.bypassLock with
    | error e =>
      rw [hcheck] at hchecks
      cases hchecks
    | ok _ =>
      rw [hcheck, hexpected] at hchecks
      by_cases hfail : p.onExists = .fail <;> simp [hfail, hne] at hchecks

/-- A client's put succeeds only on the body the client has read. -/
theorem Clients.Current.body_of_put_ok (h : s.Current) {client version pk : ℕ} {body : Str}
    {p : Put} {w' : World} (hread : s.reads client = some (version, body))
    (hrun : putDocument env (s.addressed p version) s.world = .ok pk w') :
    ∃ doc, s.document = some doc ∧ s.world.readHead doc = body := by
  obtain ⟨doc, hdoc, -, hcurrent⟩ := h.reads client version body hread
  have hversion := version_of_put_ok (p := s.addressed p version) hdoc rfl hrun
  exact ⟨doc, hdoc, (hcurrent hversion.symm).symm⟩

end Clients

/-- From every state of the tables that the service reaches, in every run of the clients in
which no put changes the body under a number that another client has read: a put succeeds only
on the body its client has read, and of two clients with one read the second does not succeed
over a body the first has changed. -/
theorem puts_see_their_reads (env : Env) (w : World) (ops : List Op) (hsite : w.Site)
    (runbook key : Str) (steps : List ClientStep)
    (hfits : ClientsFit env steps (Clients.start runbook key (run env ops w))) :
    let s := (Clients.start runbook key (run env ops w)).run env steps
    (∀ client version body p pk w', s.reads client = some (version, body) →
      putDocument env (s.addressed p version) s.world = .ok pk w' →
        ∃ doc, s.document = some doc ∧ s.world.readHead doc = body) ∧
    ∀ first second version body p, first ≠ second → s.reads first = some (version, body) →
      s.reads second = some (version, body) → (ClientStep.put first p).Fits s →
        ∀ doc, (s.step env (.put first p)).document = some doc →
          (s.step env (.put first p)).world.readHead doc ≠ body →
            ∀ q pk w', putDocument env ((s.step env (.put first p)).addressed q version)
              (s.step env (.put first p)).world ≠ .ok pk w' := by
  intro s
  have hstart : (Clients.start runbook key (run env ops w)).Current :=
    ⟨tidy_run env ops hsite, fun _ _ _ hread => by cases hread⟩
  have hs : s.Current := hstart.run hfits
  refine ⟨fun client version body p pk w' hread hrun => hs.body_of_put_ok hread hrun, ?_⟩
  intro first second version body p hne hfirst hsecond hput doc hdoc hbody q pk w' hrun
  have hread : (s.step env (.put first p)).reads second = some (version, body) := by
    simp only [Clients.step, hfirst]
    exact (Function.update_of_ne hne.symm none s.reads).trans hsecond
  obtain ⟨d, hd, htext⟩ := (hs.put hput).body_of_put_ok hread hrun
  have heq : d = doc := Option.some.inj (hd.symm.trans hdoc)
  exact hbody (heq ▸ htext)

/-! ### Two clients -/

/-- Clients of a document with the body `hello`. -/
def helloClients (steps : List ClientStep) : Clients :=
  (Clients.start "notes".toList "log".toList
    (run plainEnv [putNote (Text.ofStr "hello".toList) .newVersion] oneRunbook)).run plainEnv steps

def noteOf (text : String) (onExists : OnExists) : Put where
  runbook := "notes".toList
  key := "log".toList
  body := Text.ofStr text.toList
  onExists := onExists

/-- Two clients read version 1. The first overwrites it, and the second, which still expects
version 1, then overwrites the text of the first without having seen it. -/
theorem second_overwrites_first :
    (helloClients [.read 1, .read 2, .put 1 (noteOf "one" .overwrite)]).reads 2 =
      some (1, "hello".toList) ∧
    ((helloClients [.read 1, .read 2, .put 1 (noteOf "one" .overwrite)]).document.map
      (helloClients [.read 1, .read 2, .put 1 (noteOf "one" .overwrite)]).world.readHead) =
        some "one".toList ∧
    outcome (putDocument plainEnv
      ((helloClients [.read 1, .read 2, .put 1 (noteOf "one" .overwrite)]).addressed
        (noteOf "two" .overwrite) 1))
      (helloClients [.read 1, .read 2, .put 1 (noteOf "one" .overwrite)]).world = .ok 1 := by
  decide +kernel

/-- A new version moves the number, so it fits whoever holds a read. -/
theorem fits_snapshot :
    (ClientStep.put 1 (noteOf "one" .newVersion)).Fits (helloClients [.read 1, .read 2]) := by
  intro version body doc hread hdoc hchecks hkeeps
  have hhead : (helloClients [.read 1, .read 2]).document.map
      (fun d => (headVersion (helloClients [.read 1, .read 2]).world.db d).isSome) = some true := by
    decide +kernel
  rw [hdoc, Option.map_some] at hhead
  rw [Put.KeepsNumber, Option.some.inj hhead] at hkeeps
  cases hkeeps

/-- The second client reads again, and overwrites what it has read. -/
theorem puts_see_their_reads_again : ∃ doc,
    (helloClients [.read 1, .read 2, .put 1 (noteOf "one" .newVersion), .read 2]).document =
      some doc ∧
    (helloClients [.read 1, .read 2, .put 1 (noteOf "one" .newVersion), .read 2]).world.readHead
      doc = "one".toList := by
  have hread : (helloClients [.read 1, .read 2, .put 1 (noteOf "one" .newVersion),
      .read 2]).reads 2 = some (2, "one".toList) := by decide +kernel
  have hput : outcome (putDocument plainEnv
      ((helloClients [.read 1, .read 2, .put 1 (noteOf "one" .newVersion), .read 2]).addressed
        (noteOf "two" .overwrite) 2))
      (helloClients [.read 1, .read 2, .put 1 (noteOf "one" .newVersion), .read 2]).world =
        .ok 1 := by decide +kernel
  obtain ⟨w', hrun⟩ := exists_of_outcome hput
  exact (puts_see_their_reads plainEnv oneRunbook
    [putNote (Text.ofStr "hello".toList) .newVersion] site_oneRunbook "notes".toList "log".toList
    [.read 1, .read 2, .put 1 (noteOf "one" .newVersion), .read 2]
    ⟨trivial, trivial, fits_snapshot, trivial, trivial⟩).1 2 2 "one".toList
    (noteOf "two" .overwrite) 1 w' hread hrun

end CwStation.Documents
