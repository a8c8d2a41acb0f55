import CwStation.Verification.Documents.Heads

/-! # Puts that succeed

Over runs whose operations leave heads behind, a put in place by a trusted caller succeeds
exactly when the lock is bypassed or stays off: the lock is asked of callers that name no actor
too. -/

namespace CwStation.Documents

open Effects

variable {env : Env}

/-! ### Operations -/

theorem getOrCreateRunbook_meets {slug : Str} {manifest : Manifest} {keys : List Str} :
    Meets (fun w => Headful w ∧ ∀ key ∈ keys, ∃ rb,
        Table.get Runbook.slug w.db.runbooks slug = some rb ∧ Held w.db rb.id key)
      (getOrCreateRunbook slug manifest) (fun rb w => Headful w ∧ Keys rb.id keys w)
      fun _ => True := by
  rintro w ⟨hw, hkeys⟩
  cases h : Table.get Runbook.slug w.db.runbooks slug with
  | some rb =>
    have hrun : getOrCreateRunbook slug manifest w = .ok rb w := by
      simp only [getOrCreateRunbook, getDb, bind, EStateM.bind, get, getThe, MonadStateOf.get,
        get_eq_ok, pure, EStateM.pure, h]
    rw [hrun]
    refine ⟨hw, fun key hkey => ?_⟩
    obtain ⟨rb', hrb', hheld⟩ := hkeys key hkey
    rw [h] at hrb'
    exact Option.some.inj hrb' ▸ hheld
  | none =>
    have hempty : ∀ rb w', Keys rb keys w' := by
      intro rb w' key hkey
      obtain ⟨rb', hrb', -⟩ := hkeys key hkey
      rw [h] at hrb'
      cases hrb'
    have hrun : getOrCreateRunbook slug manifest w = insertRunbook (fun id =>
        { id := id, slug := slug, name := manifest.name.getD slug,
          description := manifest.description.getD [], icon := manifest.icon.getD [] }) w := by
      simp only [getOrCreateRunbook, getDb, bind, EStateM.bind, get, getThe, MonadStateOf.get,
        get_eq_ok, pure, EStateM.pure, h]
    rw [hrun]
    exact ((meets_headful (steady_aside (aside_insertRunbook _))).weaken (fun _ h => h)
      (fun rb w' h => (⟨h, hempty rb.id w'⟩ : Headful w' ∧ Keys rb.id keys w'))
      fun _ _ => trivial) w hw

/-- The operations that leave a head behind every key they make: an import makes no document of
an empty text, and a create that gets past its checks has a body that can be encoded. -/
def Op.LeavesHeads (w : World) : Op → Prop
  | .create runbook body fields origin =>
      ∀ rb sec key, resolveRunbook w.db runbook = .ok rb → checkAddable rb origin.actor = .ok () →
        resolveSection w.db rb fields.sec = .ok sec → fields.key = some key →
          findDocument w.db rb.id key = none → (encode body).isSome = true
  | .importBundle bundle args =>
      ∀ spec ∈ bundle.manifest.documents, spec.Blank bundle.entries →
        ∃ slug rb, importSlug args bundle.manifest = .ok slug ∧
          Table.get Runbook.slug w.db.runbooks slug = some rb ∧ Held w.db rb.id spec.key
  | _ => True

theorem keeps_importBundle {bundle : Bundle} {args : Import} {w : World} (hw : Headful w)
    (h : (Op.importBundle bundle args).LeavesHeads w) :
    Headful (endState (importBundle env bundle args) w) := by
  classical
  let keys := (bundle.manifest.documents.filter fun spec =>
    decide (spec.Blank bundle.entries)).map DocumentSpec.key
  have hblank : ∀ spec ∈ bundle.manifest.documents, spec.Blank bundle.entries →
      spec.key ∈ keys := fun spec hspec hb =>
    List.mem_map_of_mem (List.mem_filter.mpr ⟨hspec, decide_eq_true hb⟩)
  have hstanding : ∀ key ∈ keys, ∃ slug rb, importSlug args bundle.manifest = .ok slug ∧
      Table.get Runbook.slug w.db.runbooks slug = some rb ∧ Held w.db rb.id key := by
    intro key hkey
    obtain ⟨spec, hspec, rfl⟩ := List.mem_map.mp hkey
    obtain ⟨hmem, hb⟩ := List.mem_filter.mp hspec
    exact h spec hmem (of_decide_eq_true hb)
  have hslug : Meets (fun w' => w' = w) (orRaise (importSlug args bundle.manifest) : Py Str)
      (fun slug w' => Headful w' ∧ ∀ key ∈ keys, ∃ rb,
        Table.get Runbook.slug w'.db.runbooks slug = some rb ∧ Held w'.db rb.id key)
      fun _ => True := by
    rintro w' rfl
    cases himport : importSlug args bundle.manifest with
    | error e => trivial
    | ok slug =>
      refine ⟨hw, fun key hkey => ?_⟩
      obtain ⟨slug', rb, hslug', hrb, hheld⟩ := hstanding key hkey
      rw [himport] at hslug'
      rw [Except.ok.inj hslug']
      exact ⟨rb, hrb, hheld⟩
  refine headful_atomic (P := fun w' => w' = w) ?_ rfl hw
  apply hslug.bind
  intro slug
  apply getOrCreateRunbook_meets.bind
  intro rb
  have haside : ∀ {γ : Type} {x : Py γ}, Moves Aside Aside x →
      Meets (fun w => Headful w ∧ Keys rb.id keys w) x
        (fun _ w => Headful w ∧ Keys rb.id keys w) fun _ => True := fun hx =>
    (meets_steady (steady_aside hx) fun _ _ h hw => ⟨h.heads _ hw.1, hw.2.steady h⟩).weaken
      (fun _ h => h) (fun _ _ h => h) fun _ _ => trivial
  apply (haside (aside_importSections _ _)).bind
  intro sections
  apply (importDocuments_meets hblank).bind
  intro outcomes
  apply (haside (aside_pruneStale _ _ _)).bind
  intro archived
  exact meets_pure fun _ h => h.1

/-- A prune takes no head. -/
theorem Heads.pruneVersions {waiting : ℕ → Prop} {w : World} (hw : Heads waiting w.db)
    (policy : RetentionPolicy) (pk : ℕ) :
    Heads waiting (endState (pruneVersions policy pk) w).db := by
  cases h : Table.get Document.id w.db.documents pk with
  | none =>
    rw [endState_pruneVersions_none policy h]
    exact hw
  | some doc =>
    rw [endState_pruneVersions policy h]
    have hsub : (deleteVersions (pruned policy w doc) w.db).versions.Sublist w.db.versions :=
      List.filter_sublist
    exact
      { documents := hw.documents.map fun _ => rfl
        versions := hw.versions.sublist (hsub.map _)
        freshDocument := by
          intro d hd
          obtain ⟨d', hd', rfl⟩ := List.mem_map.mp hd
          exact hw.freshDocument d' hd'
        freshVersion := fun v hv => hw.freshVersion v (hsub.mem hv)
        owner := fun v hv => hw.owner v (hsub.mem hv)
        heads := by
          intro d hd hkey
          obtain ⟨d', hd', rfl⟩ := List.mem_map.mp hd
          rcases hw.heads d' hd' hkey with ⟨v, hv, hpoints, hown, hnumber⟩ | ⟨hwaits, hnone⟩
          · have hno : v.id ∉ pruned policy w doc := by
              intro hpk
              obtain ⟨hdoomed, hother⟩ := List.mem_filter.mp hpk
              obtain ⟨u, hu, hid⟩ := mem_doomed hdoomed
              obtain ⟨hmem, hdocument⟩ := mem_versionsOf hu
              have huv : u = v := hw.versions.eq_of_key hmem hv hid
              have heq : d' = doc := by
                apply hw.documents.eq_of_key hd' (Table.get_mem h)
                rw [← hown, ← huv, hdocument]
              rw [heq] at hpoints
              simp [hpoints] at hother
            refine .inl ⟨v, List.mem_filter.mpr ⟨hv, by simpa using hno⟩, ?_, hown, hnumber⟩
            rw [hpoints]
            simp [hno]
          · exact .inr ⟨hwaits, by rw [hnone.1]; rfl, hnone.2⟩ }

theorem Heads.deleteDocument {waiting : ℕ → Prop} {db : Db} (h : Heads waiting db) (pk : ℕ) :
    Heads waiting (deleteDocument pk db) := by
  have hdocuments : (CwStation.Documents.deleteDocument pk db).documents.Sublist db.documents :=
    List.filter_sublist
  have hversions : (CwStation.Documents.deleteDocument pk db).versions.Sublist db.versions :=
    List.filter_sublist
  exact
    { documents := h.documents.sublist (hdocuments.map _)
      versions := h.versions.sublist (hversions.map _)
      freshDocument := fun d hd => h.freshDocument d (hdocuments.mem hd)
      freshVersion := fun v hv => h.freshVersion v (hversions.mem hv)
      owner := fun v hv => h.owner v (hversions.mem hv)
      heads := by
        intro d hd hkey
        obtain ⟨hmem, hother⟩ := List.mem_filter.mp hd
        rcases h.heads d hmem hkey with ⟨v, hv, hpoints, hown, hnumber⟩ | hwaits
        · have hne : v.document ≠ pk := hown ▸ of_decide_eq_true hother
          exact .inl ⟨v, List.mem_filter.mpr ⟨hv, decide_eq_true hne⟩, hpoints, hown, hnumber⟩
        · exact .inr hwaits }

theorem keeps_expireDocument (waiting : ℕ → Prop) (policy : RetentionPolicy) (pk : ℕ) :
    Keeps (fun w => Heads waiting w.db) (expireDocument policy pk) := by
  apply (keeps_heads waiting (steady_aside (aside_loadDocument pk))).bind
  intro doc
  by_cases hdelete : policy.onExpire = "delete".toList
  · rw [if_pos hdelete]
    exact fun w hw => Heads.deleteDocument hw doc.id
  · rw [if_neg hdelete]
    apply keeps_heads
    exact steady_aside (aside_bind aside_timezoneNow fun now => aside_setArchived _ _ _)

section Refusals

variable {rb : Runbook} {body : Text} {fields : NewDocument} {origin : Origin} {w : World}

theorem createDocument_refused {e : Exc} (h : checkAddable rb origin.actor = .error e) :
    createDocument env rb body fields origin w = .error e w := by
  simp only [createDocument, bind, EStateM.bind, orRaise, h]

theorem createDocument_noSection {e : Exc} (hadd : checkAddable rb origin.actor = .ok ())
    (h : resolveSection w.db rb fields.sec = .error e) :
    createDocument env rb body fields origin w = .error e w := by
  simp only [createDocument, getDb, bind, EStateM.bind, get, getThe, MonadStateOf.get,
    get_eq_ok, pure, EStateM.pure, orRaise, hadd, h]

/-- A key that is taken is refused before a row is made. -/
theorem createDocument_taken {sec : Option Section} {key : Str} {doc : Document}
    (hadd : checkAddable rb origin.actor = .ok ())
    (hsec : resolveSection w.db rb fields.sec = .ok sec) (hkey : fields.key = some key)
    (hfound : findDocument w.db rb.id key = some doc) :
    createDocument env rb body fields origin w =
      .error .integrityError { w with now := w.now + 1 } := by
  have htaken : keyTaken w.db (insertedRow env w (fields.row rb sec origin)) = true := by
    have hface : face (insertedRow env w (fields.row rb sec origin)) =
        face (fields.row rb sec origin w.db.nextDocument w.now) := face_withSlug _
    have hrunbook : (insertedRow env w (fields.row rb sec origin)).runbook = some rb.id :=
      congrArg (fun f => f.2.1) hface
    have hrowkey : (insertedRow env w (fields.row rb sec origin)).key = some key :=
      (congrArg (fun f => f.2.2) hface).trans hkey
    rw [keyTaken, hrunbook, hrowkey]
    have hmem := List.mem_of_find?_eq_some hfound
    have hmatch := List.find?_some hfound
    simp only [decide_eq_true_eq] at hmatch
    simp only [Option.isSome_some, Bool.true_and, List.any_eq_true]
    exact ⟨doc, hmem, by simp [hmatch.1, hmatch.2]⟩
  have hinsert : insertDocument env (fields.row rb sec origin) w =
      .error .integrityError { w with now := w.now + 1 } := by
    rw [insertDocument_run, if_pos htaken]
  simp only [createDocument, getDb, bind, EStateM.bind, get, getThe, MonadStateOf.get,
    get_eq_ok, pure, EStateM.pure, orRaise, hadd, hsec, hinsert]

end Refusals

theorem keeps_create {runbook : Str} {body : Text} {fields : NewDocument} {origin : Origin}
    {w : World} (hw : Headful w) (h : (Op.create runbook body fields origin).LeavesHeads w) :
    Headful ((Op.create runbook body fields origin).perform env w) := by
  cases hrb : resolveRunbook w.db runbook with
  | error e =>
    have hrun : (Op.create runbook body fields origin).program env w = .error e w := by
      simp only [Op.program, getDb, bind, EStateM.bind, get, getThe, MonadStateOf.get,
        get_eq_ok, pure, EStateM.pure, orRaise, hrb]
    rw [Op.perform, endState_of_error hrun]
    exact hw
  | ok rb =>
    have hrun : (Op.create runbook body fields origin).perform env w =
        endState (createDocument env rb body fields origin) w := by
      have hbind : (Op.create runbook body fields origin).program env w =
          (createDocument env rb body fields origin >>= fun _ => pure PUnit.unit) w := by
        simp only [Op.program, getDb, bind, EStateM.bind, get, getThe, MonadStateOf.get,
          get_eq_ok, pure, EStateM.pure, orRaise, hrb]
      rw [Op.perform, endState, hbind]
      exact endState_bind_pure _ _ w
    rw [hrun]
    by_cases hbody : (encode body).isSome = true
    · exact (createDocument_meets hbody).keeps (fun _ _ h => h) w hw
    · cases hkey : fields.key with
      | none => exact createDocument_keyless hkey w hw
      | some key =>
        cases hadd : checkAddable rb origin.actor with
        | error e =>
          rw [endState_of_error (createDocument_refused hadd)]
          exact hw
        | ok _ =>
          cases hsec : resolveSection w.db rb fields.sec with
          | error e =>
            rw [endState_of_error (createDocument_noSection hadd hsec)]
            exact hw
          | ok sec =>
            cases hfound : findDocument w.db rb.id key with
            | none => exact absurd (h rb sec key hrb hadd hsec hkey hfound) hbody
            | some doc =>
              rw [endState_of_error (createDocument_taken hadd hsec hkey hfound)]
              exact hw

theorem Op.headful {op : Op} {w : World} (hw : Headful w) (h : op.LeavesHeads w) :
    Headful (op.perform env w) := by
  cases op with
  | create runbook body fields origin => exact keeps_create hw h
  | put p =>
    rw [Op.perform, Op.program, endState_bind_pure]
    exact keeps_putDocument p w hw
  | write document body mode description origin bypassLock =>
    exact keeps_of_steady (steady_writeVersion _ _ _ _ _ _) w hw
  | restore document version origin bypassLock =>
    refine keeps_of_steady ?_ w hw
    apply steady_bind (steady_aside (aside_loadDocument document))
    intro doc
    apply steady_bind (steady_aside aside_getDb)
    intro db
    cases db.versions.find? fun v => v.document = doc.id ∧ v.version = version with
    | none => exact steady_aside (aside_throw _)
    | some old =>
      apply steady_bind (steady_aside aside_get)
      intro w
      exact steady_writeVersion _ _ _ _ _ _
  | copy c =>
    rw [Op.perform, Op.program, endState_bind_pure]
    exact keeps_copyDocument c w hw
  | clone c =>
    rw [Op.perform, Op.program, endState_bind_pure]
    exact keeps_cloneRunbook c w hw
  | importBundle bundle args =>
    rw [Op.perform, Op.program, endState_bind_pure]
    exact keeps_importBundle hw h
  | attach document data filename alt actor =>
    rw [Op.perform, Op.program, endState_bind_pure]
    exact keeps_of_steady (steady_aside (aside_attachImage _ _ _ _ _)) w hw
  | archive document actor bypassLock =>
    exact keeps_of_steady (steady_aside (aside_archiveDocument _ _ _)) w hw
  | unarchive document actor bypassLock =>
    exact keeps_of_steady (steady_aside (aside_unarchiveDocument _ _ _)) w hw
  | prune policy document =>
    rw [Op.perform, Op.program, endState_bind_pure]
    exact Heads.pruneVersions hw policy document
  | expire policy document => exact keeps_expireDocument _ policy document w hw
  | elapse microseconds => exact hw

/-- Every operation of a run leaves heads behind. -/
def RunLeavesHeads (env : Env) : List Op → World → Prop
  | [], _ => True
  | op :: ops, w => op.LeavesHeads w ∧ RunLeavesHeads env ops (op.perform env w)

theorem headful_run {ops : List Op} {w : World} (hw : Headful w)
    (h : RunLeavesHeads env ops w) : Headful (run env ops w) := by
  induction ops generalizing w with
  | nil => exact hw
  | cons op ops ih => exact ih (Op.headful hw h.1) h.2

theorem World.Site.headful {w : World} (h : w.Site) : Headful w where
  documents := h.documents ▸ List.nodup_nil
  versions := h.versions ▸ List.nodup_nil
  freshDocument := h.documents ▸ fun _ hdoc => absurd hdoc List.not_mem_nil
  freshVersion := h.versions ▸ fun _ hv => absurd hv List.not_mem_nil
  owner := h.versions ▸ fun _ hv => absurd hv List.not_mem_nil
  heads := h.documents ▸ fun _ hdoc => absurd hdoc List.not_mem_nil

/-! ### Puts -/

theorem Headful.headVersion {w : World} (h : Headful w) {doc : Document}
    (hdoc : doc ∈ w.db.documents) (hkey : doc.key ≠ none) :
    ∃ v, headVersion w.db doc = some v := by
  rcases h.heads doc hdoc hkey with ⟨v, hv, hpoints, -⟩ | ⟨hwaits, -⟩
  · refine ⟨v, ?_⟩
    rw [CwStation.Documents.headVersion, hpoints, Option.bind_some,
      Table.get_of_mem h.versions hv]
  · exact hwaits.elim

section Puts

variable {w : World} {p : Put} {rb : Runbook} {doc : Document}

/-- Of a trusted caller only the lock is asked. -/
theorem checkWritable_trusted {db : Db} {actor : Option Actor} {bypassLock : Bool}
    (h : actor = none ∨ bypassLock = true) :
    checkWritable db doc actor bypassLock =
      if doc.locked = true ∧ bypassLock = false then .error .documentLocked else .ok () := by
  rcases h with rfl | rfl
  · cases hlocked : doc.locked <;> cases bypassLock <;> simp [checkWritable, hlocked]
  · cases actor <;> simp [checkWritable]

theorem checkWritable_ne_assertion {db : Db} {actor : Option Actor} {bypassLock : Bool} :
    checkWritable db doc actor bypassLock ≠ .error .assertionError := by
  unfold checkWritable
  cases actor with
  | none =>
    by_cases hlocked : (doc.locked && !bypassLock) = true <;> simp [hlocked]
  | some user =>
    by_cases hedit : (!bypassLock && !canEdit user (runbookOf db doc)) = true
    · by_cases hview : canView user (runbookOf db doc) = true <;> simp [hedit, hview]
    · by_cases hlocked : (doc.locked && !bypassLock && !user.isSuperuser) = true <;>
        simp [hedit, hlocked]

theorem checks_ne_assertion {db : Db} : p.checks db doc ≠ .error .assertionError := by
  intro h
  rw [Put.checks] at h
  cases hcheck : checkWritable db doc p.origin.actor p.bypassLock with
  | error e =>
    rw [hcheck] at h
    exact checkWritable_ne_assertion (hcheck.trans h)
  | ok _ =>
    rw [hcheck] at h
    by_cases hfail : p.onExists = .fail
    · simp [hfail] at h
    · cases hexpected : p.expectedVersion with
      | none => simp [hfail, hexpected] at h
      | some n => by_cases hversion : doc.version = n <;> simp [hfail, hexpected, hversion] at h

theorem encode_text (mode : WriteMode) (head : Str) {body : Text}
    (h : (encode body).isSome = true) : (encode (mode.text head body)).isSome = true := by
  cases mode with
  | newVersion => exact h
  | overwrite => exact h
  | append => exact encode_appended head h
  | appendVersion => exact encode_appended head h

theorem resolveSection_ne_assertion {db : Db} {sec : Option SectionRef} :
    resolveSection db rb sec ≠ .error .assertionError := by
  cases sec with
  | none => simp [resolveSection]
  | some ref =>
    cases ref with
    | row s => by_cases hown : s.runbook = rb.id <;> simp [resolveSection, hown]
    | slug slug =>
      intro h
      cases hfind : db.sections.find? fun s => s.runbook = rb.id ∧ s.slug = slug with
      | none =>
        simp only [resolveSection, hfind] at h
        cases h
      | some s =>
        simp only [resolveSection, hfind] at h
        cases h

/-- A write in place behind a head: it is refused, or its body cannot be encoded, or it is
made. -/
theorem writeVersion_inPlace_cases (env : Env) {pk : ℕ} {mode : WriteMode} {v : DocumentVersion}
    (body : Text) (description : Str) (origin : Origin) (bypassLock : Bool)
    (h : Table.get Document.id w.db.documents pk = some doc) (hmode : mode.inPlace = true)
    (hhead : headVersion w.db doc = some v) :
    (∃ e, checkWritable w.db doc origin.actor bypassLock = .error e ∧
      writeVersion env pk body mode description origin bypassLock w = .error e w) ∨
    checkWritable w.db doc origin.actor bypassLock = .ok () ∧
      ((∃ w', (encode body).isSome = false ∧
        writeVersion env pk body mode description origin bypassLock w =
          .error .unicodeEncodeError w') ∨
        ∃ w', writeVersion env pk body mode description origin bypassLock w = .ok () w') := by
  cases hcheck : checkWritable w.db doc origin.actor bypassLock with
  | error e => exact .inl ⟨e, rfl, writeVersion_refused h hcheck⟩
  | ok _ =>
    refine .inr ⟨rfl, ?_⟩
    cases htext : encode (mode.text (w.readHead doc) body) with
    | none =>
      refine .inl ⟨{ w with disk := w.disk.set v.file [] }, ?_, ?_⟩
      · by_contra hbody
        rw [Bool.not_eq_false] at hbody
        have hsome := encode_text mode (w.readHead doc) hbody
        rw [htext] at hsome
        cases hsome
      · rw [writeVersion_allowed h hcheck, if_pos hmode, atomic,
          overwriteHead_unencodable h hhead htext]
    | some text => exact .inr ⟨_, writeVersion_inPlace h hcheck hmode hhead htext⟩

theorem key_of_findDocument {db : Db} {rb : ℕ} {key : Str} (h : findDocument db rb key = some doc) :
    doc.runbook = some rb ∧ doc.key = some key := by
  have hmatch := List.find?_some h
  simpa using hmatch

/-- A put in place that passes the checks: the lock is asked again after it was set, and then
the body is encoded. -/
theorem putDocument_inPlace (env : Env) (hw : Headful w) {sec : Option Section}
    (hrb : resolveRunbook w.db p.runbook = .ok rb)
    (hdoc : findDocument w.db rb.id p.key = some doc) (hmode : p.onExists.mode.inPlace = true)
    (hchecks : p.checks w.db doc = .ok ()) (hsec : resolveSection w.db rb p.sec = .ok sec) :
    ∃ db doc', doc'.locked = p.locked.getD doc.locked ∧
      ((∃ e w', checkWritable db doc' p.origin.actor p.bypassLock = .error e ∧
        putDocument env p w = .error e w') ∨
      checkWritable db doc' p.origin.actor p.bypassLock = .ok () ∧
        ((∃ w', (encode p.body).isSome = false ∧
          putDocument env p w = .error .unicodeEncodeError w') ∨
        ∃ w', putDocument env p w = .ok doc.id w')) := by
  have hmem : doc ∈ w.db.documents := List.mem_of_find?_eq_some hdoc
  have hkey : doc.key ≠ none := by simp [(key_of_findDocument hdoc).2]
  obtain ⟨v, hv⟩ := hw.headVersion hmem hkey
  obtain ⟨update, now, hupdate, hface, hlocked, -⟩ := update_run env p sec w doc
  have hget := get_altered (fun d => id_of_face (hface d)) now
    (Table.get_of_mem hw.documents hmem)
  have hhead : headVersion (w.altered doc.id update now).db (update doc) = some v :=
    (headVersion_aside (aside_altered hface now) (hface doc)).trans hv
  refine ⟨(w.altered doc.id update now).db, update doc, hlocked, ?_⟩
  rw [putDocument_update hrb hdoc hchecks hsec, atomic, hupdate]
  rcases writeVersion_inPlace_cases env p.body [] p.origin p.bypassLock hget hmode hhead with
    ⟨e, hcheck, hwrite⟩ | ⟨hcheck, ⟨w₂, hbody, hwrite⟩ | ⟨w₂, hwrite⟩⟩
  · rw [bind_of_error hwrite]
    exact .inl ⟨e, _, hcheck, rfl⟩
  · rw [bind_of_error hwrite]
    exact .inr ⟨hcheck, .inl ⟨_, hbody, rfl⟩⟩
  · rw [bind_of_ok hwrite]
    exact .inr ⟨hcheck, .inr ⟨w₂, rfl⟩⟩

/-- The assertion that there is a head never fails. -/
theorem put_ne_assertion (hw : Headful w) (hrb : resolveRunbook w.db p.runbook = .ok rb)
    (hdoc : findDocument w.db rb.id p.key = some doc) (hmode : p.onExists.mode.inPlace = true)
    (w' : World) : putDocument env p w ≠ .error .assertionError w' := by
  intro hrun
  cases hchecks : p.checks w.db doc with
  | error e =>
    rw [putDocument_refused hrb hdoc hchecks] at hrun
    obtain ⟨rfl, -⟩ := EStateM.Result.error.inj hrun
    exact checks_ne_assertion hchecks
  | ok _ =>
    cases hsec : resolveSection w.db rb p.sec with
    | error e =>
      rw [putDocument_noSection hrb hdoc hchecks hsec] at hrun
      obtain ⟨rfl, -⟩ := EStateM.Result.error.inj hrun
      exact resolveSection_ne_assertion hsec
    | ok sec =>
      obtain ⟨db, doc', -, ⟨e, w₁, hcheck, hput⟩ | ⟨-, ⟨w₁, -, hput⟩ | ⟨w₁, hput⟩⟩⟩ :=
        putDocument_inPlace env hw hrb hdoc hmode hchecks hsec
      · rw [hput] at hrun
        obtain ⟨rfl, -⟩ := EStateM.Result.error.inj hrun
        exact checkWritable_ne_assertion hcheck
      · rw [hput] at hrun
        cases hrun
      · rw [hput] at hrun
        cases hrun

/-- The lock stays out of the way: it is bypassed, or is off and stays off. -/
def Put.unlocked (p : Put) (doc : Document) : Prop :=
  p.bypassLock = true ∨ doc.locked = false ∧ p.locked ≠ some true

/-- The checks of a put in place by a trusted caller come down to the lock. -/
theorem checks_trusted_iff (db : Db) (hmode : p.onExists.mode.inPlace = true)
    (htrusted : p.origin.actor = none ∨ p.bypassLock = true)
    (hexpected : ∀ n, p.expectedVersion = some n → doc.version = n) :
    p.checks db doc = .ok () ↔ p.bypassLock = true ∨ doc.locked = false := by
  have hfail : p.onExists ≠ .fail := by
    intro hfail
    rw [hfail] at hmode
    cases hmode
  rw [Put.checks, checkWritable_trusted htrusted]
  by_cases hlock : doc.locked = true ∧ p.bypassLock = false
  · simp [hlock.1, hlock.2]
  · have hopen : p.bypassLock = true ∨ doc.locked = false := by
      cases hbypass : p.bypassLock with
      | true => exact .inl rfl
      | false => exact .inr (by simpa [hbypass] using hlock)
    rw [if_neg hlock, if_neg hfail]
    cases hversion : p.expectedVersion with
    | none => simp [hopen]
    | some n => simp [hopen, hexpected n hversion]

/-- A put in place by a trusted caller succeeds exactly when the lock stays out of the way. -/
theorem put_trusted_iff (env : Env) (hw : Headful w) {sec : Option Section}
    (hrb : resolveRunbook w.db p.runbook = .ok rb)
    (hdoc : findDocument w.db rb.id p.key = some doc) (hmode : p.onExists.mode.inPlace = true)
    (htrusted : p.origin.actor = none ∨ p.bypassLock = true)
    (hbody : (encode p.body).isSome = true)
    (hexpected : ∀ n, p.expectedVersion = some n → doc.version = n)
    (hsec : resolveSection w.db rb p.sec = .ok sec) :
    (∃ w', putDocument env p w = .ok doc.id w') ↔ p.unlocked doc := by
  by_cases hopen : p.bypassLock = true ∨ doc.locked = false
  · have hchecks := (checks_trusted_iff w.db hmode htrusted hexpected).mpr hopen
    obtain ⟨db, doc', hlocked, houtcome⟩ :=
      putDocument_inPlace env hw hrb hdoc hmode hchecks hsec
    rw [checkWritable_trusted htrusted, hlocked] at houtcome
    by_cases hlock : p.locked.getD doc.locked = true ∧ p.bypassLock = false
    · rw [if_pos hlock] at houtcome
      have hclosed : ¬p.unlocked doc := by
        rintro (hbypass | ⟨hoff, hkept⟩)
        · rw [hbypass] at hlock
          cases hlock.2
        · cases hset : p.locked with
          | none =>
            rw [hset, Option.getD_none, hoff] at hlock
            cases hlock.1
          | some b =>
            cases b with
            | true => exact hkept hset
            | false =>
              rw [hset, Option.getD_some] at hlock
              cases hlock.1
      rcases houtcome with ⟨e, w', -, hput⟩ | ⟨hok, -⟩
      · constructor
        · rintro ⟨w'', hput'⟩
          rw [hput] at hput'
          cases hput'
        · exact fun h => absurd h hclosed
      · cases hok
    · rw [if_neg hlock] at houtcome
      have hunlocked : p.unlocked doc := by
        rcases hopen with hbypass | hoff
        · exact .inl hbypass
        · cases hbypass : p.bypassLock with
          | true => exact .inl hbypass
          | false =>
            refine .inr ⟨hoff, fun hset => hlock ⟨?_, hbypass⟩⟩
            rw [hset]
            rfl
      rcases houtcome with ⟨e, w', hcheck, -⟩ | ⟨-, ⟨w', hnone, -⟩ | hput⟩
      · cases hcheck
      · rw [hbody] at hnone
        cases hnone
      · exact ⟨fun _ => hunlocked, fun _ => hput⟩
  · have hrefused : ∃ e, p.checks w.db doc = .error e := by
      cases hchecks : p.checks w.db doc with
      | error e => exact ⟨e, rfl⟩
      | ok _ => exact absurd ((checks_trusted_iff w.db hmode htrusted hexpected).mp hchecks) hopen
    obtain ⟨e, hchecks⟩ := hrefused
    constructor
    · rintro ⟨w', hput⟩
      rw [putDocument_refused hrb hdoc hchecks] at hput
      cases hput
    · rintro (hbypass | ⟨hoff, -⟩)
      · exact absurd (.inl hbypass) hopen
      · exact absurd (.inr hoff) hopen

end Puts

/-! ### Runs -/

/-- A bundle with one document, whose text is `text`. -/
def noteBundle (text : Str) : Bundle where
  manifest :=
    { slug := some "notes".toList
      documents := [{ key := "log".toList, path := "log.md".toList }] }
  entries := [("log.md".toList, .utf8 text)]

def overwriteNote : Put where
  runbook := "notes".toList
  key := "log".toList
  body := Text.ofStr "hello".toList
  onExists := .overwrite
  bypassLock := true

theorem imported_note_leavesHeads :
    RunLeavesHeads plainEnv [.importBundle (noteBundle "text".toList) {}] oneRunbook := by
  refine ⟨?_, trivial⟩
  rintro spec hspec ⟨hread, -⟩
  rw [noteBundle, List.mem_singleton] at hspec
  rw [hspec] at hread
  exact absurd hread (by decide)

end CwStation.Documents
