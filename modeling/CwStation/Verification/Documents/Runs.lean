import CwStation.Model.Bundles
import CwStation.Verification.Documents.Puts

/-! # The histories over runs

Every operation keeps the histories sound, but for a rewrite in place whose body cannot be
encoded: the head's file is emptied before the exception, and the tables keep the old text. -/

namespace CwStation.Documents

open Effects

variable {env : Env} {R : World → World → Prop}

/-! ### Retention -/

section Retention

variable {w : World} {pk : ℕ} {doc : Document}

/-- The versions a prune deletes. -/
def pruned (policy : RetentionPolicy) (w : World) (doc : Document) : List ℕ :=
  (doomed policy w.now (versionsOf w.db doc.id)).filter fun v => doc.currentVersion ≠ some v

theorem endState_pruneVersions_none (policy : RetentionPolicy)
    (h : Table.get Document.id w.db.documents pk = none) :
    endState (pruneVersions policy pk) w = w :=
  endState_of_error (bind_of_error (loadDocument_none h))

theorem endState_pruneVersions (policy : RetentionPolicy)
    (h : Table.get Document.id w.db.documents pk = some doc) :
    endState (pruneVersions policy pk) w =
      { db := deleteVersions (pruned policy w doc) w.db, disk := w.disk, now := w.now + 1 } := by
  have hpk : doc.id = pk := Table.key_of_get h
  subst hpk
  rw [endState, pruneVersions, bind_of_ok (loadDocument_some h)]
  rfl

theorem mem_versionsOf {v : DocumentVersion} (h : v ∈ versionsOf w.db pk) :
    v ∈ w.db.versions ∧ v.document = pk := by
  have hmem := (List.mem_insertionSort _).mp h
  simpa using List.mem_filter.mp hmem

theorem mem_sliceFrom {γ : Type} {n : ℤ} {items : List γ} {a : γ} (h : a ∈ sliceFrom n items) :
    a ∈ items := by
  rw [sliceFrom] at h
  by_cases hn : 0 ≤ n
  · rw [if_pos hn] at h
    exact List.mem_of_mem_drop h
  · rw [if_neg hn] at h
    exact List.mem_of_mem_drop h

/-- A policy dooms versions of the document only. -/
theorem mem_doomed {policy : RetentionPolicy} {now : ℤ} {versions : List DocumentVersion} {n : ℕ}
    (h : n ∈ doomed policy now versions) : ∃ v ∈ versions, v.id = n := by
  obtain ⟨v, hv, hid⟩ := List.mem_map.mp h
  refine ⟨v, ?_, hid⟩
  rcases List.mem_append.mp hv with hv | hv
  · cases hmax : policy.maxVersions with
    | none =>
      rw [hmax] at hv
      cases hv
    | some n =>
      rw [hmax] at hv
      exact mem_sliceFrom hv
  · cases hage : policy.maxVersionAgeDays with
    | none =>
      rw [hage] at hv
      cases hv
    | some days =>
      rw [hage] at hv
      exact List.mem_of_mem_filter hv

/-- No head of any document is pruned. -/
theorem heads_not_pruned (hs : Sound env w) (policy : RetentionPolicy)
    (hdoc : doc ∈ w.db.documents) :
    ∀ d ∈ w.db.documents, ∀ n ∈ pruned policy w doc, d.currentVersion ≠ some n := by
  intro d hd n hn hcurrent
  obtain ⟨hdoomed, hother⟩ := List.mem_filter.mp hn
  obtain ⟨v, hv, rfl⟩ := mem_doomed hdoomed
  obtain ⟨hmem, hown⟩ := mem_versionsOf hv
  rcases hs.headed d hd with ⟨hnone, -⟩ | ⟨u, hu⟩
  · rw [hnone] at hcurrent
    cases hcurrent
  · have hid : u.id = v.id := Option.some.inj (hu.points.symm.trans hcurrent)
    have huv : u = v := hs.versions.eq_of_key hu.mem hmem hid
    have hpk : d.id = doc.id := by rw [← hu.own, huv, hown]
    have heq : d = doc := hs.documents.eq_of_key hd hdoc hpk
    rw [heq] at hcurrent
    simp [hcurrent] at hother

theorem evolves_pruneVersions (policy : RetentionPolicy) (w : World) (pk : ℕ) :
    Evolves env w (endState (pruneVersions policy pk) w) := by
  intro hs
  cases h : Table.get Document.id w.db.documents pk with
  | none =>
    rw [endState_pruneVersions_none policy h]
    exact Evolves.refl env w hs
  | some doc =>
    rw [endState_pruneVersions policy h]
    have hclock : Grows env { w with db := deleteVersions (pruned policy w doc) w.db }
        { db := deleteVersions (pruned policy w doc) w.db, disk := w.disk, now := w.now + 1 } :=
      grows_of_core rfl rfl le_rfl rfl List.prefix_rfl
    have hdeleted : Grows env w { w with db := deleteVersions (pruned policy w doc) w.db } :=
      grows_deleteVersions (heads_not_pruned hs policy (Table.get_mem h))
    exact (hdeleted.trans hclock).1 hs

theorem grows_expireDocument (policy : RetentionPolicy) (pk : ℕ) :
    Moves (Grows env) (Grows env) (expireDocument policy pk) := by
  apply (growing env).bind (grows_aside (aside_loadDocument pk))
  intro doc
  by_cases hdelete : policy.onExpire = "delete".toList
  · rw [if_pos hdelete]
    exact moves_modify fun w => grows_deleteDocument env w doc.id
  · rw [if_neg hdelete]
    exact (growing env).bind (grows_aside aside_timezoneNow) fun now => grows_aside (aside_setArchived _ _ _)

end Retention

/-! ### Import -/

theorem aside_getOrCreateSection (rb : ℕ) (spec : SectionSpec) :
    Moves Aside Aside (getOrCreateSection rb spec) := by
  apply aside_bind aside_getDb
  intro db
  cases db.sections.find? fun sec => sec.runbook = rb ∧ sec.slug = spec.slug with
  | none => exact aside_insertSection _
  | some sec => exact aside_pure sec

theorem aside_importSections (rb : ℕ) (specs : List SectionSpec) :
    Moves Aside Aside (importSections rb specs) := by
  induction specs with
  | nil => exact aside_pure []
  | cons spec specs ih =>
    apply aside_bind (aside_getOrCreateSection rb spec)
    intro sec
    exact aside_bind ih fun _ => aside_pure _

theorem aside_readImages (entries : List (Str × Blob)) (dir : Str) (specs : List ImageSpec) :
    Moves Aside Aside (readImages entries dir specs) := by
  induction specs with
  | nil => exact aside_pure []
  | cons spec specs ih =>
    rw [readImages]
    cases zipRead entries (if dir = [] then spec.ref else posixJoin dir spec.ref) with
    | none => exact aside_throw _
    | some blob => exact aside_bind ih fun _ => aside_pure _

theorem aside_createImages (pk : ℕ) (actor : Option Actor) (desired : List Desired)
    (content : Str) : Moves Aside Aside (createImages env pk actor desired content) := by
  induction desired generalizing content with
  | nil => exact aside_pure content
  | cons d desired ih => exact aside_bind (aside_insertImage _ _ _ _ _) fun image => ih _

theorem aside_importImages (pk : ℕ) (actor : Option Actor) (desired : List Desired)
    (content : Str) : Moves Aside Aside (importImages env pk actor desired content) := by
  apply aside_bind aside_getDb
  intro db
  by_cases hsame : sameImages env (imagesOf db pk) desired = true
  · simp only [hsame]
    exact aside_pure _
  · simp only [hsame]
    exact aside_bind (aside_modifyDb fun _ => ⟨rfl, rfl, rfl, rfl⟩) fun _ =>
      aside_createImages pk actor desired content

theorem aside_refreshDocument (sec : Option ℕ) (args : Import) (spec : DocumentSpec)
    (doc : Document) :
    Moves Aside Aside (refreshDocument env sec args spec doc) := by
  rw [refreshDocument]
  by_cases hchanged : spec.refresh sec args doc ≠ doc
  · rw [if_pos hchanged]
    apply aside_bind aside_timezoneNow
    intro now
    apply aside_alterDocument
    intro d
    exact face_withSlug (spec.refresh sec args d)
  · rw [if_neg hchanged]
    exact aside_pure ()

theorem Admits.upsertDocument (h : Admits env R) (rb : ℕ) (sec : Option ℕ) (args : Import) (spec : DocumentSpec) :
    Moves R R (upsertDocument env rb sec args spec) := by
  apply h.bind (h.aside aside_getDb)
  intro db
  cases findDocument db rb spec.key with
  | none =>
    exact h.bind (h.insert _ ⟨fun _ _ => rfl, fun _ _ => rfl, fun _ _ => rfl⟩) fun _ =>
      h.aside (aside_pure _)
  | some doc => exact h.bind (h.aside (aside_refreshDocument sec args spec doc)) fun _ => h.aside (aside_pure _)

theorem Admits.importContent (h : Admits env R) (pk : ℕ) (args : Import) (content : Str) :
    Moves R R (importContent env pk args content) := by
  apply h.bind (h.aside (aside_loadDocument pk))
  intro doc
  apply h.bind (h.aside aside_get)
  intro w
  by_cases hchanged : content ≠ w.readHead doc
  · rw [if_pos hchanged]
    exact h.bind (h.writeVersion rfl) fun _ => h.aside (aside_pure true)
  · rw [if_neg hchanged]
    exact h.aside (aside_pure false)

theorem Admits.importDocument (h : Admits env R) (rb : ℕ) (sections : List (Str × ℕ)) (args : Import)
    (entries : List (Str × Blob)) (spec : DocumentSpec) :
    Moves R R (importDocument env rb sections args entries spec) := by
  apply h.bind (h.aside (aside_orRaise _))
  intro content
  apply h.bind (h.upsertDocument _ _ _ _)
  intro upserted
  apply h.bind (h.aside (aside_readImages _ _ _))
  intro desired
  apply h.bind (h.aside (aside_importImages _ _ _ _))
  intro content
  exact h.bind (h.importContent _ _ _) fun _ => h.aside (aside_pure _)

theorem Admits.importDocuments (h : Admits env R) (rb : ℕ) (sections : List (Str × ℕ)) (args : Import)
    (entries : List (Str × Blob)) (specs : List DocumentSpec) :
    Moves R R (importDocuments env rb sections args entries specs) := by
  induction specs with
  | nil => exact h.aside (aside_pure [])
  | cons spec specs ih =>
    apply h.bind (h.importDocument _ _ _ _ _)
    intro outcome
    exact h.bind ih fun _ => h.aside (aside_pure _)

theorem aside_pruneStale (rb : ℕ) (args : Import) (seen : List Str) :
    Moves Aside Aside (pruneStale rb args seen) := by
  rw [pruneStale]
  cases args.prune with
  | false => exact aside_pure 0
  | true =>
    apply aside_bind aside_getDb
    intro db
    apply aside_bind aside_timezoneNow
    intro now
    refine aside_bind (aside_mapDocuments ?_) fun _ => aside_pure _
    intro doc
    cases isStale rb args.source seen doc <;> rfl

theorem Admits.importBundle (h : Admits env R) (bundle : Bundle) (args : Import) :
    Moves R R (importBundle env bundle args) := by
  apply h.atomic
  apply h.bind (h.aside (aside_orRaise _))
  intro slug
  refine h.bind ?_ fun rb => ?_
  · apply h.bind (h.aside aside_getDb)
    intro db
    cases Table.get Runbook.slug db.runbooks slug with
    | none => exact h.aside (aside_insertRunbook _)
    | some rb => exact h.aside (aside_pure rb)
  · apply h.bind (h.aside (aside_importSections _ _))
    intro sections
    apply h.bind (h.importDocuments _ _ _ _ _)
    intro outcomes
    exact h.bind (h.aside (aside_pruneStale _ _ _)) fun _ => h.aside (aside_pure _)

/-! ### Operations -/

/-- The updates that get past the checks of `put_document` and write in place have a body that
can be encoded. -/
def Put.Fits (p : Put) (w : World) : Prop :=
  ∀ rb doc, resolveRunbook w.db p.runbook = .ok rb → findDocument w.db rb.id p.key = some doc →
    p.checks w.db doc = .ok () → p.encodable

/-- A write in place that gets past the checks has a body that can be encoded. -/
def Op.Fits (w : World) : Op → Prop
  | .put p => p.Fits w
  | .write document body mode _ origin bypassLock =>
      ∀ doc, Table.get Document.id w.db.documents document = some doc →
        checkWritable w.db doc origin.actor bypassLock = .ok () → mode.inPlace = true →
          (encode body).isSome = true
  | _ => True

/-- Every operation of a run fits the state it meets. -/
def RunFits (env : Env) : List Op → World → Prop
  | [], _ => True
  | op :: ops, w => op.Fits w ∧ RunFits env ops (op.perform env w)

section Put

variable {p : Put} {w : World} {rb : Runbook} {doc : Document}

theorem Put.evolves (h : p.Fits w) : Evolves env w (endState (putDocument env p) w) := by
  by_cases hbody : p.encodable
  · exact (writes_evolves (writes_putDocument p hbody)).endState w
  · cases hrb : resolveRunbook w.db p.runbook with
    | error e =>
      rw [endState_of_error (putDocument_noRunbook hrb)]
      exact Evolves.refl env w
    | ok rb =>
      cases hdoc : findDocument w.db rb.id p.key with
      | none =>
        rw [endState, putDocument_create hrb hdoc]
        exact (writes_evolves (grows_writes
          ((growing env).atomic ((growing env).createDocument rb p.body _ p.origin)))).endState w
      | some doc =>
        cases hchecks : p.checks w.db doc with
        | error e =>
          rw [endState_of_error (putDocument_refused hrb hdoc hchecks)]
          exact Evolves.refl env w
        | ok _ => exact absurd (h rb doc hrb hdoc hchecks) hbody

end Put

theorem evolves_of_writes {α : Type} {x : Py α} (hx : Moves (Evolves env) (Grows env) x)
    (w : World) : Evolves env w (endState (x >>= fun _ => pure PUnit.unit) w) := by
  rw [endState_bind_pure]
  exact (writes_evolves hx).endState w

theorem evolves_writeVersion {w : World} {pk : ℕ} {body : Text} {mode : WriteMode}
    {description : Str} {origin : Origin} {bypassLock : Bool}
    (h : (Op.write pk body mode description origin bypassLock).Fits w) :
    Evolves env w (endState (writeVersion env pk body mode description origin bypassLock) w) := by
  by_cases hbody : mode.inPlace = true → (encode body).isSome = true
  · exact (writes_evolves (writes_writeVersion hbody)).endState w
  · cases hdoc : Table.get Document.id w.db.documents pk with
    | none =>
      rw [endState_of_error (writeVersion_noDocument hdoc)]
      exact Evolves.refl env w
    | some doc =>
      cases hwritable : checkWritable w.db doc origin.actor bypassLock with
      | error e =>
        rw [endState_of_error (writeVersion_refused hdoc hwritable)]
        exact Evolves.refl env w
      | ok _ => exact absurd (h doc hdoc hwritable) hbody

/-- One operation. -/
theorem Op.evolves {op : Op} {w : World} (h : op.Fits w) : Evolves env w (op.perform env w) := by
  cases op with
  | create runbook body fields origin =>
    refine (writes_evolves (grows_writes ?_)).endState w
    apply (growing env).bind (grows_aside aside_getDb)
    intro db
    apply (growing env).bind (grows_aside (aside_orRaise _))
    intro rb
    exact (growing env).bind ((growing env).createDocument rb body fields origin) fun _ => grows_aside (aside_pure _)
  | put p =>
    rw [Op.perform, Op.program, endState_bind_pure]
    exact Put.evolves h
  | write document body mode description origin bypassLock => exact evolves_writeVersion h
  | restore document version origin bypassLock =>
    exact (writes_evolves (grows_writes ((growing env).restoreVersion _ _ _ _))).endState w
  | copy c =>
    rw [Op.perform, Op.program, endState_bind_pure]
    exact (evolves_copyDocument c).endState w
  | clone c => exact evolves_of_writes (grows_writes ((growing env).cloneRunbook c)) w
  | importBundle bundle args =>
    exact evolves_of_writes (grows_writes ((growing env).importBundle bundle args)) w
  | attach document data filename alt actor =>
    exact evolves_of_writes (grows_writes (grows_aside (aside_attachImage _ _ _ _ _))) w
  | archive document actor bypassLock =>
    exact (writes_evolves (grows_writes (grows_aside (aside_archiveDocument _ _ _)))).endState w
  | unarchive document actor bypassLock =>
    exact (writes_evolves (grows_writes (grows_aside (aside_unarchiveDocument _ _ _)))).endState w
  | prune policy document =>
    rw [Op.perform, Op.program, endState_bind_pure]
    exact evolves_pruneVersions policy w document
  | expire policy document =>
    exact (writes_evolves (grows_writes (grows_expireDocument _ _))).endState w
  | elapse microseconds =>
    have hclock : Grows env w { w with now := w.now + microseconds } :=
      grows_of_core rfl rfl le_rfl rfl List.prefix_rfl
    exact hclock.1

theorem evolves_run {ops : List Op} {w : World} (h : RunFits env ops w) :
    Evolves env w (run env ops w) := by
  induction ops generalizing w with
  | nil => exact Evolves.refl env w
  | cons op ops ih => exact (Op.evolves h.1).trans (ih h.2)

theorem RunFits.append {before after : List Op} {w : World} (h : RunFits env (before ++ after) w) :
    RunFits env before w ∧ RunFits env after (run env before w) := by
  induction before generalizing w with
  | nil => exact ⟨trivial, h⟩
  | cons op before ih => exact ⟨⟨h.1, (ih h.2).1⟩, (ih h.2).2⟩

theorem run_append (before after : List Op) (w : World) :
    run env (before ++ after) w = run env after (run env before w) := List.foldl_append

/-! ### What runs guarantee -/

/-- A site before its first document. -/
structure World.Site (w : World) : Prop where
  documents : w.db.documents = []
  versions : w.db.versions = []

theorem World.Site.sound {w : World} (h : w.Site) : Sound env w where
  documents := h.documents ▸ List.nodup_nil
  versions := h.versions ▸ List.nodup_nil
  numbers := h.versions ▸ List.nodup_nil
  files := h.versions ▸ List.nodup_nil
  freshDocument := h.documents ▸ fun _ hdoc => absurd hdoc List.not_mem_nil
  freshVersion := h.versions ▸ fun _ hv => absurd hv List.not_mem_nil
  owner := h.versions ▸ fun _ hv => absurd hv List.not_mem_nil
  stored := h.versions ▸ fun _ hv => absurd hv List.not_mem_nil
  headed := h.documents ▸ fun _ hdoc => absurd hdoc List.not_mem_nil

/-- A document agrees with its versions, and its head with the text of its file. -/
structure Consistent (env : Env) (w : World) (doc : Document) : Prop where
  numbers : ((w.db.versions.filter fun v => v.document = doc.id).map
    DocumentVersion.version).Nodup
  head : ∃ v ∈ w.db.versions, headVersion w.db doc = some v ∧ v.document = doc.id ∧
    doc.version = v.version ∧
    (∀ u ∈ w.db.versions, u.document = doc.id → u.version ≤ v.version) ∧
    doc.contentText = v.contentText ∧
    v.contentText = stripFrontmatter env.unicode (w.readHead doc)

/-- Numbers that differ with their documents differ in one document. -/
theorem Sound.numbers_nodup {w : World} (hs : Sound env w) (pk : ℕ) :
    ((w.db.versions.filter fun v => v.document = pk).map DocumentVersion.version).Nodup := by
  have hsub : (w.db.versions.filter fun v => v.document = pk).Sublist w.db.versions :=
    List.filter_sublist
  have hpairs := hs.numbers.sublist (hsub.map _)
  have hsame : (w.db.versions.filter fun v => v.document = pk).map
      (fun v => (v.document, v.version)) =
        ((w.db.versions.filter fun v => v.document = pk).map DocumentVersion.version).map
          fun n => (pk, n) := by
    rw [List.map_map]
    apply List.map_congr_left
    intro v hv
    have hown : v.document = pk := by simpa using List.of_mem_filter hv
    rw [hown]
    rfl
  rw [hsame] at hpairs
  exact hpairs.of_map _

theorem Sound.consistent {w : World} (hs : Sound env w) {doc : Document}
    (hdoc : doc ∈ w.db.documents) (hcurrent : doc.currentVersion ≠ none) :
    Consistent env w doc := by
  rcases hs.headed doc hdoc with ⟨hnone, -⟩ | ⟨v, hv⟩
  · exact absurd hnone hcurrent
  · have hhead := headVersion_of_synced hs hv
    refine ⟨hs.numbers_nodup doc.id, v, hv.mem, hhead, hv.own, hv.number, hv.newest, hv.text, ?_⟩
    rw [hv.stripped, World.readHead, hhead]

/-- A prune leaves every head where it is. -/
theorem Sound.head_kept {w : World} (hs : Sound env w) (policy : RetentionPolicy) (pk : ℕ)
    {doc : Document} (hdoc : doc ∈ w.db.documents) {v : DocumentVersion}
    (hhead : headVersion w.db doc = some v) :
    doc ∈ (endState (pruneVersions policy pk) w).db.documents ∧
      headVersion (endState (pruneVersions policy pk) w).db doc = some v := by
  cases h : Table.get Document.id w.db.documents pk with
  | none =>
    rw [endState_pruneVersions_none policy h]
    exact ⟨hdoc, hhead⟩
  | some d =>
    have hkept := heads_not_pruned hs policy (Table.get_mem h)
    have hsynced := synced_of_head hs hdoc hhead
    rw [endState_pruneVersions policy h]
    refine ⟨?_, ?_⟩
    · rw [deleteVersions_documents hkept]
      exact hdoc
    · have hno : v.id ∉ pruned policy w d := fun hv => hkept doc hdoc v.id hv hsynced.points
      rw [headVersion, hsynced.points, Option.bind_some]
      apply Table.get_filter_of_some (Table.get_of_mem hs.versions hsynced.mem)
      simpa using hno

/-- What belongs to a document: its row, its versions and its images. -/
@[ext] structure Shelf where
  row : Option Document
  versions : List DocumentVersion
  images : List DocumentImage

def World.shelf (w : World) (pk : ℕ) : Shelf where
  row := Table.get Document.id w.db.documents pk
  versions := w.db.versions.filter fun v => v.document = pk
  images := w.db.images.filter fun image => image.document = pk

namespace Shelf

/-- The versions that a prune at the time `t` leaves. -/
def kept (policy : RetentionPolicy) (t : ℤ) (doc : Document) (s : Shelf) : List DocumentVersion :=
  s.versions.filter fun v =>
    v.id ∉ (doomed policy t (s.versions.insertionSort fun a b => b.version ≤ a.version)).filter
      fun n => doc.currentVersion ≠ some n

/-- What a sweep that started at `now` makes of a live document, which it prunes at `t` and
archives at `t'`. -/
def swept (policy : RetentionPolicy) (now t t' : ℤ) (doc : Document) (s : Shelf) : Shelf :=
  if isExpired policy doc now then
    if policy.onExpire = "delete".toList then ⟨none, [], []⟩
    else
      { s with
        row := some { doc with isArchived := true, archivedAt := some t', updatedAt := t' }
        versions := s.kept policy t doc }
  else { s with versions := s.kept policy t doc }

end Shelf

section Sweep

variable {w : World} {doc : Document} {now : ℤ} {policy : RetentionPolicy}

/-- Behind the prune of a document. -/
def World.prunedBy (w : World) (policy : RetentionPolicy) (doc : Document) : World :=
  { db := deleteVersions (pruned policy w doc) w.db, disk := w.disk, now := w.now + 1 }

/-- Behind the end of a document. -/
def World.expiredBy (w : World) (policy : RetentionPolicy) (doc : Document) : World :=
  if policy.onExpire = "delete".toList then { w with db := deleteDocument doc.id w.db }
  else { db := setArchived doc.id (some w.now) w.now w.db, disk := w.disk, now := w.now + 1 }

/-- A prune is about the versions of one document. -/
theorem shelf_prunedBy (policy : RetentionPolicy) (hs : Sound env w)
    (hdoc : doc ∈ w.db.documents) (pk : ℕ) :
    (w.prunedBy policy doc).shelf pk =
      if pk = doc.id then { w.shelf pk with versions := (w.shelf pk).kept policy w.now doc }
      else w.shelf pk := by
  have hrows := deleteVersions_documents (heads_not_pruned hs policy hdoc)
  by_cases hpk : pk = doc.id
  · subst hpk
    rw [if_pos rfl]
    refine Shelf.ext (congrArg (Table.get Document.id · doc.id) hrows) ?_ rfl
    simp only [World.shelf, World.prunedBy, deleteVersions, Shelf.kept, pruned, versionsOf]
    exact List.filter_comm _ _ _
  · rw [if_neg hpk]
    refine Shelf.ext (congrArg (Table.get Document.id · pk) hrows) ?_ rfl
    simp only [World.shelf, World.prunedBy, deleteVersions]
    rw [List.filter_comm, List.filter_eq_self]
    intro v hv
    obtain ⟨hmem, hown⟩ := List.mem_filter.mp hv
    simp only [decide_eq_true_eq] at hown ⊢
    intro hpruned
    obtain ⟨u, hu, hid⟩ := mem_doomed (List.mem_of_mem_filter hpruned)
    obtain ⟨humem, huown⟩ := mem_versionsOf hu
    have huv : u = v := hs.versions.eq_of_key humem hmem hid
    exact hpk (hown.symm.trans (huv ▸ huown))

theorem shelf_deleteDocument (w : World) (pk pk' : ℕ) :
    World.shelf { w with db := deleteDocument pk' w.db } pk =
      if pk = pk' then ⟨none, [], []⟩ else w.shelf pk := by
  by_cases hpk : pk = pk'
  · subst hpk
    rw [if_pos rfl]
    refine Shelf.ext (Table.get_eq_none_iff.mpr ?_) ?_ ?_
    · intro doc hdoc
      simpa using List.of_mem_filter hdoc
    · simp [World.shelf, deleteDocument, List.filter_filter]
    · simp [World.shelf, deleteDocument, List.filter_filter]
  · rw [if_neg hpk]
    have hother : ∀ n, n = pk → n ≠ pk' := fun n hn heq => hpk (hn.symm.trans heq)
    refine Shelf.ext (Table.get_filter fun doc _ hid => decide_eq_true (hother doc.id hid)) ?_ ?_
    · simp only [World.shelf, deleteDocument, List.filter_filter]
      exact List.filter_congr fun v _ => by simpa using hother v.document
    · simp only [World.shelf, deleteDocument, List.filter_filter]
      exact List.filter_congr fun image _ => by simpa using hother image.document

theorem shelf_setArchived (w : World) (pk pk' : ℕ) (t : ℤ) (now : ℤ) :
    World.shelf { db := setArchived pk' (some t) t w.db, disk := w.disk, now := now } pk =
      if pk = pk' then { w.shelf pk with row := (w.shelf pk).row.map fun doc =>
        { doc with isArchived := true, archivedAt := some t, updatedAt := t } }
      else w.shelf pk := by
  have hrow : Table.get Document.id (setArchived pk' (some t) t w.db).documents pk = _ :=
    Table.get_alter fun _ => rfl
  by_cases hpk : pk = pk'
  · subst hpk
    rw [if_pos rfl] at hrow ⊢
    exact Shelf.ext hrow rfl rfl
  · rw [if_neg hpk] at hrow ⊢
    exact Shelf.ext hrow rfl rfl

/-- The end of a document is about nothing else. -/
theorem shelf_expiredBy (w : World) (policy : RetentionPolicy) (doc : Document) (pk : ℕ) :
    (w.expiredBy policy doc).shelf pk =
      if pk = doc.id then
        if policy.onExpire = "delete".toList then ⟨none, [], []⟩
        else { w.shelf pk with row := (w.shelf pk).row.map fun doc =>
          { doc with isArchived := true, archivedAt := some w.now, updatedAt := w.now } }
      else w.shelf pk := by
  rw [World.expiredBy]
  by_cases hdelete : policy.onExpire = "delete".toList
  · rw [if_pos hdelete, if_pos hdelete]
    exact shelf_deleteDocument w pk doc.id
  · rw [if_neg hdelete, if_neg hdelete]
    exact shelf_setArchived w pk doc.id w.now _

theorem expiredBy_rest (w : World) (policy : RetentionPolicy) (doc : Document) :
    (w.expiredBy policy doc).db.runbooks = w.db.runbooks ∧
      (w.expiredBy policy doc).disk = w.disk ∧ w.now ≤ (w.expiredBy policy doc).now := by
  rw [World.expiredBy]
  split
  · exact ⟨rfl, rfl, le_rfl⟩
  · exact ⟨rfl, rfl, Int.le_add_one le_rfl⟩

theorem pruneVersions_eq (policy : RetentionPolicy)
    (h : Table.get Document.id w.db.documents doc.id = some doc) :
    ∃ n, pruneVersions policy doc.id w = .ok n (w.prunedBy policy doc) := by
  rw [pruneVersions, bind_of_ok (loadDocument_some h)]
  exact ⟨_, rfl⟩

theorem expireDocument_eq (policy : RetentionPolicy)
    (h : Table.get Document.id w.db.documents doc.id = some doc) :
    expireDocument policy doc.id w = .ok () (w.expiredBy policy doc) := by
  rw [expireDocument, bind_of_ok (loadDocument_some h), World.expiredBy]
  by_cases hdelete : policy.onExpire = "delete".toList
  · rw [if_pos hdelete, if_pos hdelete]
    rfl
  · rw [if_neg hdelete, if_neg hdelete]
    rfl

/-- What a sweep of some documents has done: it goes by the policy of each. -/
structure SweptBy (env : Env) (now : ℤ) (pks : List ℕ) (w w' : World) : Prop where
  sound : Sound env w'
  runbooks : w'.db.runbooks = w.db.runbooks
  disk : w'.disk = w.disk
  clock : w.now ≤ w'.now
  others : ∀ pk, pk ∉ pks → w'.shelf pk = w.shelf pk
  swept : ∀ pk ∈ pks, ∀ doc, (w.shelf pk).row = some doc →
    ∃ t t', w.now ≤ t ∧ w.now ≤ t' ∧
      w'.shelf pk = (w.shelf pk).swept (effectivePolicy env w.db doc) now t t' doc

theorem sweepDocument_spec (now : ℤ) (hs : Sound env w)
    (h : Table.get Document.id w.db.documents doc.id = some doc) :
    ∃ counts w', sweepDocument env now doc.id w = .ok counts w' ∧
      SweptBy env now [doc.id] w w' := by
  obtain ⟨policy, hpolicy⟩ : ∃ policy, policy = effectivePolicy env w.db doc := ⟨_, rfl⟩
  obtain ⟨n, hprune⟩ := pruneVersions_eq policy h
  have hsound := (evolves_pruneVersions policy w doc.id hs).1
  rw [endState_of_ok hprune] at hsound
  have hshelf := shelf_prunedBy policy hs (Table.get_mem h)
  have hrow : Table.get Document.id (w.prunedBy policy doc).db.documents doc.id = some doc := by
    have hsame := congrArg Shelf.row (hshelf doc.id)
    rw [if_pos rfl] at hsame
    exact hsame.trans h
  rw [sweepDocument, bind_of_ok (loadDocument_some h)]
  show ∃ counts w', (pruneVersions (effectivePolicy env w.db doc) doc.id >>= _) w = _ ∧ _
  rw [← hpolicy, bind_of_ok hprune]
  by_cases hexpired : isExpired policy doc now = true
  · have hlater := (writes_evolves (grows_writes
      (grows_expireDocument policy doc.id))).endState _ hsound
    have hexpire := expireDocument_eq policy hrow
    rw [endState_of_ok hexpire] at hlater
    rw [if_pos hexpired]
    obtain ⟨hrunbooks, hdisk, hclock⟩ := expiredBy_rest (w.prunedBy policy doc) policy doc
    refine ⟨(n, 1), _, bind_of_ok hexpire, hlater.1, hrunbooks, hdisk, ?_, ?_, ?_⟩
    · exact (Int.le_add_one le_rfl).trans hclock
    · intro pk hpk
      have hne : pk ≠ doc.id := fun heq => hpk (List.mem_singleton.mpr heq)
      rw [shelf_expiredBy, if_neg hne, hshelf, if_neg hne]
    · intro pk hpk d hd
      obtain rfl := List.mem_singleton.mp hpk
      obtain rfl : doc = d := Option.some.inj (h.symm.trans hd)
      refine ⟨w.now, w.now + 1, le_rfl, Int.le_add_one le_rfl, ?_⟩
      rw [shelf_expiredBy, if_pos rfl, hshelf, if_pos rfl, Shelf.swept, ← hpolicy, if_pos hexpired]
      by_cases hdelete : policy.onExpire = "delete".toList
      · rw [if_pos hdelete, if_pos hdelete]
      · rw [if_neg hdelete, if_neg hdelete, hd]
        rfl
  · rw [if_neg hexpired]
    refine ⟨(n, 0), _, rfl, hsound, rfl, rfl, Int.le_add_one le_rfl, ?_, ?_⟩
    · intro pk hpk
      rw [hshelf, if_neg fun heq => hpk (List.mem_singleton.mpr heq)]
    · intro pk hpk d hd
      obtain rfl := List.mem_singleton.mp hpk
      obtain rfl : doc = d := Option.some.inj (h.symm.trans hd)
      refine ⟨w.now, w.now, le_rfl, le_rfl, ?_⟩
      rw [hshelf, if_pos rfl, Shelf.swept, ← hpolicy, if_neg hexpired]

theorem SweptBy.cons {pk : ℕ} {pks : List ℕ} {w₁ w' : World} (hpk : pk ∉ pks)
    (h : SweptBy env now [pk] w w₁) (h' : SweptBy env now pks w₁ w') :
    SweptBy env now (pk :: pks) w w' where
  sound := h'.sound
  runbooks := h'.runbooks.trans h.runbooks
  disk := h'.disk.trans h.disk
  clock := h.clock.trans h'.clock
  others i hi := by
    rw [h'.others i fun hmem => hi (List.mem_cons_of_mem _ hmem), h.others i]
    exact fun hmem => hi (List.mem_singleton.mp hmem ▸ List.mem_cons_self)
  swept i hi d hd := by
    rcases List.mem_cons.mp hi with rfl | hmem
    · rw [h'.others i hpk]
      exact h.swept i (List.mem_singleton_self i) d hd
    · have hne : i ∉ [pk] := fun heq => hpk (List.mem_singleton.mp heq ▸ hmem)
      rw [← h.others i hne] at hd ⊢
      obtain ⟨t, t', ht, ht', hswept⟩ := h'.swept i hmem d hd
      have hpolicy : effectivePolicy env w₁.db d = effectivePolicy env w.db d := by
        simp only [effectivePolicy, h.runbooks]
      rw [hpolicy] at hswept
      exact ⟨t, t', h.clock.trans ht, h.clock.trans ht', hswept⟩

theorem sweepLoop_spec (now : ℤ) {pks : List ℕ} (hs : Sound env w) (hpks : pks.Nodup)
    (hrows : ∀ pk ∈ pks, ∃ doc, (w.shelf pk).row = some doc) :
    ∃ counts w', sweepLoop env now pks w = .ok counts w' ∧ SweptBy env now pks w w' := by
  induction pks generalizing w with
  | nil =>
    refine ⟨(0, 0), w, rfl, hs, rfl, rfl, le_rfl, fun _ _ => rfl, ?_⟩
    intro pk hpk
    cases hpk
  | cons pk pks ih =>
    obtain ⟨hpk, hnodup⟩ := List.nodup_cons.mp hpks
    obtain ⟨doc, hdoc⟩ := hrows pk List.mem_cons_self
    obtain rfl : doc.id = pk := Table.key_of_get hdoc
    obtain ⟨counts, w₁, hrun, hswept⟩ := sweepDocument_spec now hs hdoc
    have hrest : ∀ i ∈ pks, ∃ d, (w₁.shelf i).row = some d := by
      intro i hi
      rw [hswept.others i fun heq => hpk (List.mem_singleton.mp heq ▸ hi)]
      exact hrows i (List.mem_cons_of_mem _ hi)
    obtain ⟨counts', w', hrun', hswept'⟩ := ih hswept.sound hnodup hrest
    refine ⟨(counts.1 + counts'.1, counts.2 + counts'.2), w', ?_, hswept.cons hpk hswept'⟩
    rw [sweepLoop, bind_of_ok hrun, bind_of_ok hrun']
    rfl

namespace Shelf

variable {s : Shelf} {t t' : ℤ} {v : DocumentVersion}

/-- A prune leaves the newest versions and the head. -/
theorem newest_of_kept {n : ℤ} (hmax : policy.maxVersions = some n) (hn : 0 ≤ n)
    (hv : v ∈ s.kept policy t doc) :
    v ∈ (s.versions.insertionSort fun a b => b.version ≤ a.version).take n.toNat ∨
      doc.currentVersion = some v.id := by
  obtain ⟨hmem, hkept⟩ := List.mem_filter.mp hv
  by_cases hhead : doc.currentVersion = some v.id
  · exact .inr hhead
  · refine .inl ?_
    have hsorted := (List.mem_insertionSort fun a b => b.version ≤ a.version).mpr hmem
    rw [← List.take_append_drop n.toNat (s.versions.insertionSort _), List.mem_append] at hsorted
    refine hsorted.resolve_right fun hdrop => ?_
    have hdoomed : v.id ∈ doomed policy t (s.versions.insertionSort fun a b =>
        b.version ≤ a.version) := by
      refine List.mem_map_of_mem (List.mem_append_left _ ?_)
      rw [hmax]
      simpa only [sliceFrom, if_pos hn] using hdrop
    exact of_decide_eq_true hkept (List.mem_filter.mpr ⟨hdoomed, by simpa using hhead⟩)

theorem head_of_kept (hv : v ∈ s.versions) (hhead : doc.currentVersion = some v.id) :
    v ∈ s.kept policy t doc := by
  refine List.mem_filter.mpr ⟨hv, decide_eq_true fun hmem => ?_⟩
  have hother := List.of_mem_filter hmem
  simp [hhead] at hother

theorem swept_cases (policy : RetentionPolicy) (now t t' : ℤ) (hrow : s.row = some doc) :
    s.swept policy now t t' doc = ⟨none, [], []⟩ ∨
      (s.swept policy now t t' doc).versions = s.kept policy t doc ∧
        ∃ doc', (s.swept policy now t t' doc).row = some doc' ∧
          doc'.currentVersion = doc.currentVersion := by
  rw [swept]
  split
  · split
    · exact .inl rfl
    · exact .inr ⟨rfl, _, rfl, rfl⟩
  · exact .inr ⟨rfl, doc, hrow, rfl⟩

end Shelf

/-- What a sweep does to a site: it goes by the policy of each live document, leaves the newest
versions and no document without its head, and touches nothing else. -/
structure Sweeps (env : Env) (now : ℤ) (w w' : World) : Prop where
  disk : w'.disk = w.disk
  others : ∀ pk, (∀ doc, (w.shelf pk).row = some doc → doc.isArchived = true) →
    w'.shelf pk = w.shelf pk
  live : ∀ pk doc, (w.shelf pk).row = some doc → doc.isArchived = false →
    ∃ t t', w.now ≤ t ∧ w.now ≤ t' ∧
      w'.shelf pk = (w.shelf pk).swept (effectivePolicy env w.db doc) now t t' doc
  bounded : ∀ pk doc, (w.shelf pk).row = some doc → doc.isArchived = false →
    ∀ n, (effectivePolicy env w.db doc).maxVersions = some n → 0 ≤ n →
      ∀ v ∈ (w'.shelf pk).versions,
        v ∈ (versionsOf w.db pk).take n.toNat ∨ doc.currentVersion = some v.id
  heads : ∀ pk doc doc' v, (w.shelf pk).row = some doc → v ∈ (w.shelf pk).versions →
    doc.currentVersion = some v.id → (w'.shelf pk).row = some doc' →
      doc'.currentVersion = some v.id ∧ v ∈ (w'.shelf pk).versions

end Sweep

/-! ### A body that cannot be encoded -/

/-- A site with one runbook. -/
def oneRunbook : World where
  db :=
    { runbooks := [{ id := 1, name := "Notes".toList, slug := "notes".toList }]
      nextRunbook := 2 }
  disk := []
  now := 0

/-- An environment for slugs, ASCII and one order number a row. -/
def plainEnv : Env where
  unicode := Unicode.ascii
  slugify title := title
  sha256 blob := match blob with
    | .utf8 text => 'u' :: text
    | .raw bytes => 'r' :: bytes.map Char.ofNat
  before a b := match a.1, b.1 with
    | none, _ => true
    | some _, none => false
    | some m, some n => m ≤ n

def putNote (body : Text) (onExists : OnExists) : Op :=
  .put { runbook := "notes".toList, key := "log".toList, body := body, onExists := onExists }

theorem site_oneRunbook : oneRunbook.Site := ⟨rfl, rfl⟩

theorem fits_putNote {body : Text} (hbody : (encode body).isSome = true) (onExists : OnExists)
    (w : World) : (putNote body onExists).Fits w := fun _ _ _ _ _ _ => hbody

end CwStation.Documents
