import CwStation.Verification.Documents.Mirrors
import CwStation.Verification.Documents.Replacing
import CwStation.Verification.Python.Strings

/-! # Copies of documents

A copy is a put of the source's text and then, when the text shows images, an overwrite with the
text that shows the copies of the images. The second write does not know the mode of the first. -/

namespace CwStation.Documents

open Effects

variable {env : Env} {α β : Type}

/-! ### Heads and their files -/

/-- Every version has a file of its own, and a head is a version of its document. -/
structure Owned (w : World) : Prop where
  files : Table.Unique DocumentVersion.file w.db.versions
  points : ∀ doc ∈ w.db.documents, ∀ n, doc.currentVersion = some n → n < w.db.nextVersion
  own : ∀ doc ∈ w.db.documents, ∀ v ∈ w.db.versions, doc.currentVersion = some v.id →
    v.document = doc.id

/-- A step that makes no head and no file. -/
theorem Owned.of {w w' : World} (h : Owned w)
    (hversions : ∀ v' ∈ w'.db.versions, ∃ v ∈ w.db.versions, v'.id = v.id ∧
      v'.document = v.document)
    (hfiles : Table.Unique DocumentVersion.file w'.db.versions)
    (hnext : w.db.nextVersion ≤ w'.db.nextVersion)
    (hdocuments : ∀ d' ∈ w'.db.documents, d'.currentVersion = none ∨
      ∃ d ∈ w.db.documents, d'.id = d.id ∧ d'.currentVersion = d.currentVersion) : Owned w' where
  files := hfiles
  points := by
    intro d' hd' n hn
    rcases hdocuments d' hd' with hnone | ⟨d, hd, -, hcurrent⟩
    · rw [hnone] at hn
      cases hn
    · exact lt_of_lt_of_le (h.points d hd n (hcurrent ▸ hn)) hnext
  own := by
    intro d' hd' v' hv' hpoints
    rcases hdocuments d' hd' with hnone | ⟨d, hd, hid, hcurrent⟩
    · rw [hnone] at hpoints
      cases hpoints
    · obtain ⟨v, hv, hvid, hdocument⟩ := hversions v' hv'
      rw [hdocument, hid]
      exact h.own d hd v hv (by rw [← hcurrent, hpoints, hvid])

theorem Owned.of_db {w w' : World} (h : Owned w) (hdb : w'.db = w.db) : Owned w' where
  files := hdb ▸ h.files
  points := hdb ▸ h.points
  own := hdb ▸ h.own

theorem Owned.withVersion {w : World} {doc : Document} (h : Owned w) (hw : Tidy w)
    (file description : Str) (origin : Origin) :
    Owned (w.withVersion env doc file description origin) := by
  have hold : ∀ v ∈ w.db.versions, v.id < w.db.nextVersion := hw.heads.freshVersion
  have hdocuments : ∀ d' ∈ (w.withVersion env doc file description origin).db.documents,
      ∃ d ∈ w.db.documents, d'.id = d.id ∧ (d'.currentVersion = some w.db.nextVersion ∧
        d.id = doc.id ∨ d'.currentVersion = d.currentVersion) := by
    intro d' hd'
    obtain ⟨d, hd, rfl⟩ := Table.mem_alter hd'
    by_cases hdoc : d.id = doc.id
    · rw [if_pos hdoc]
      exact ⟨d, hd, rfl, .inl ⟨rfl, hdoc⟩⟩
    · rw [if_neg hdoc]
      exact ⟨d, hd, rfl, .inr rfl⟩
  refine ⟨?_, ?_, ?_⟩
  · refine h.files.append (Table.get_eq_none_iff.mpr fun v hv => ?_)
    exact (hw.stored v hv).ne
  · intro d' hd' n hn
    obtain ⟨d, hd, -, ⟨hnew, -⟩ | hsame⟩ := hdocuments d' hd'
    · rw [hnew] at hn
      exact Option.some.inj hn ▸ Nat.lt_succ_self _
    · exact (h.points d hd n (hsame ▸ hn)).trans (Nat.lt_succ_self _)
  · intro d' hd' v hv hpoints
    obtain ⟨d, hd, hid, ⟨hnew, hdoc⟩ | hsame⟩ := hdocuments d' hd'
    · have hnext : v.id = w.db.nextVersion := Option.some.inj (hpoints.symm.trans hnew)
      rcases List.mem_append.mp hv with hv | hv
      · exact absurd hnext (hold v hv).ne
      · rw [List.mem_singleton.mp hv, hid, hdoc]
        rfl
    · rcases List.mem_append.mp hv with hv | hv
      · exact hid ▸ h.own d hd v hv (hsame ▸ hpoints)
      · have hlt := h.points d hd v.id (hsame ▸ hpoints)
        rw [List.mem_singleton.mp hv] at hlt
        exact absurd hlt (lt_irrefl _)

theorem Owned.overwritten {w : World} {doc : Document} {v : DocumentVersion} (h : Owned w)
    (text : Str) (origin : Origin) : Owned (w.overwritten env doc.id v text origin) := by
  refine h.of ?_ (h.files.map fun u => ?_) le_rfl ?_
  · intro u' hu'
    obtain ⟨u, hu, hid, hdocument, -⟩ := mem_versions_overwritten hu'
    exact ⟨u, hu, hid, hdocument⟩
  · by_cases hid : u.id = v.id
    · rw [if_pos hid]
      rfl
    · rw [if_neg hid]
  · intro d' hd'
    obtain ⟨d, hd, hid, hcurrent, -⟩ := mem_documents_overwritten hd'
    exact .inr ⟨d, hd, hid, hcurrent⟩

/-- A step from which owned states come. -/
structure Owns (w w' : World) : Prop extends Tidies w w' where
  owned : Tidy w → Owned w → Owned w'

theorem owns_createNewVersion (pk : ℕ) (file description : Str) (origin : Origin) :
    Moves Owns Owns (createNewVersion env pk file description origin) := by
  intro w
  have htidies : Moves Tidies Tidies (createNewVersion env pk file description origin) :=
    tidies_createNewVersion pk file description origin
  have hrun := htidies w
  cases h : Table.get Document.id w.db.documents pk with
  | none =>
    rw [createNewVersion_none h] at hrun ⊢
    exact ⟨hrun, fun _ hw => hw⟩
  | some doc =>
    rw [createNewVersion_some h] at hrun ⊢
    by_cases hdup : (w.db.versions.any fun v =>
        v.document = pk && v.version = nextVersionNumber w.db doc) = true
    · rw [if_pos hdup] at hrun ⊢
      exact ⟨hrun, fun _ hw => hw.of_db rfl⟩
    · rw [if_neg hdup] at hrun ⊢
      exact ⟨hrun, fun htidy hw => hw.withVersion htidy _ _ _⟩

theorem owns_overwriteHead (pk : ℕ) (body : Text) (origin : Origin) :
    Moves Owns Owns (overwriteHead env pk body origin) := by
  intro w
  have htidies : Moves Tidies Tidies (overwriteHead env pk body origin) :=
    tidies_overwriteHead pk body origin
  have hrun := htidies w
  cases h : Table.get Document.id w.db.documents pk with
  | none =>
    rw [overwriteHead_noDocument h] at hrun ⊢
    exact ⟨hrun, fun _ hw => hw⟩
  | some doc =>
    cases hhead : headVersion w.db doc with
    | none =>
      rw [overwriteHead_none h hhead] at hrun ⊢
      exact ⟨hrun, fun _ hw => hw⟩
    | some v =>
      cases htext : encode body with
      | none =>
        rw [overwriteHead_unencodable h hhead htext] at hrun ⊢
        exact ⟨hrun, fun _ hw => hw.of_db rfl⟩
      | some text =>
        have hpk : doc.id = pk := Table.key_of_get h
        subst hpk
        rw [overwriteHead_some h hhead htext] at hrun ⊢
        exact ⟨hrun, fun _ hw => hw.overwritten text origin⟩

theorem owns_insertDocument {row : ℕ → ℤ → Document} (h : NewRow row) :
    Moves Owns Owns (insertDocument env row) := by
  intro w
  have htidies : Moves Tidies Tidies (insertDocument env row) := tidies_insertDocument h
  have hrun := htidies w
  rw [insertDocument_run] at hrun ⊢
  by_cases htaken : keyTaken w.db (insertedRow env w row) = true
  · rw [if_pos htaken] at hrun ⊢
    exact ⟨hrun, fun _ hw => hw.of_db rfl⟩
  · rw [if_neg htaken] at hrun ⊢
    refine ⟨hrun, fun _ hw => hw.of (fun v hv => ⟨v, hv, rfl, rfl⟩) hw.files le_rfl ?_⟩
    intro d hd
    rcases List.mem_append.mp hd with hd | hd
    · exact .inr ⟨d, hd, rfl, rfl⟩
    · rw [List.mem_singleton.mp hd]
      exact .inl (h.inserted_head w)

theorem owns_pruneVersions (env : Env) (policy : RetentionPolicy) (pk : ℕ) (w : World) :
    Owns w (endState (pruneVersions policy pk) w) := by
  have hrun := (tidies_stable env).prune policy pk w
  cases h : Table.get Document.id w.db.documents pk with
  | none =>
    rw [endState_pruneVersions_none policy h] at hrun ⊢
    exact ⟨hrun, fun _ hw => hw⟩
  | some doc =>
    rw [endState_pruneVersions policy h] at hrun ⊢
    refine ⟨hrun, fun _ hw => hw.of ?_ (hw.files.sublist (List.filter_sublist.map _)) le_rfl ?_⟩
    · exact fun v hv => ⟨v, List.mem_of_mem_filter hv, rfl, rfl⟩
    · intro d' hd'
      obtain ⟨d, hd, rfl⟩ := List.mem_map.mp hd'
      cases hcurrent : d.currentVersion with
      | none => exact .inl rfl
      | some n =>
        by_cases hn : n ∈ pruned policy w doc
        · exact .inl (by simp [hn])
        · exact .inr ⟨d, hd, rfl, by simp [hn, hcurrent]⟩

theorem owns_aside {w w' : World} (h : Aside w w') : Owns w w' where
  toTidies := Tidies.of_steady h.steady (congrArg List.length h.disk).ge fun v hv =>
    .inl ⟨v, h.versions ▸ hv, rfl⟩
  owned _ hw := by
    refine hw.of (fun v hv => ⟨v, h.versions ▸ hv, rfl, rfl⟩) (h.versions ▸ hw.files)
      h.nextVersion.ge fun d' hd' => ?_
    have hface := List.mem_map_of_mem (f := face) hd'
    rw [h.faces] at hface
    obtain ⟨d, hd, heq⟩ := List.mem_map.mp hface
    exact .inr ⟨d, hd, (id_of_face heq).symm, (congrArg (fun f => f.1.2.1) heq).symm⟩

/-- Heads stay in place, whatever is done. -/
theorem owns_stable (env : Env) : Stable env Owns where
  refl w := ⟨(tidies_stable env).refl w, fun _ hw => hw⟩
  trans _ _ _ h h' := ⟨(tidies_stable env).trans _ _ _ h.toTidies h'.toTidies,
    fun htidy hw => h'.owned (h.tidy htidy) (h.owned htidy hw)⟩
  beside _ _ h := owns_aside h
  rollback w w' h := ⟨(tidies_stable env).rollback w w' h.toTidies, fun _ hw => hw.of_db rfl⟩
  version := owns_createNewVersion
  insert _ h := owns_insertDocument h
  overwrite := owns_overwriteHead
  prune policy pk w := owns_pruneVersions env policy pk w
  delete pk w := by
    refine ⟨(tidies_stable env).delete pk w, fun _ hw => hw.of ?_
      (hw.files.sublist (List.filter_sublist.map _)) le_rfl ?_⟩
    · exact fun v hv => ⟨v, List.mem_of_mem_filter hv, rfl, rfl⟩
    · exact fun d hd => .inr ⟨d, List.mem_of_mem_filter hd, rfl, rfl⟩

theorem World.Site.owned {w : World} (h : w.Site) : Owned w where
  files := h.versions ▸ List.nodup_nil
  points := h.documents ▸ fun _ hd => absurd hd List.not_mem_nil
  own := h.documents ▸ fun _ hd => absurd hd List.not_mem_nil

theorem owned_run (env : Env) {w : World} (ops : List Op) (h : w.Site) : Owned (run env ops w) :=
  ((owns_stable env).run ops w).owned h.tidy h.owned

/-! ### What a write does -/

/-- The rows of a document, the texts of its versions and its images are as before. -/
structure Untouched (pk : ℕ) (w w' : World) : Prop where
  row : Table.get Document.id w'.db.documents pk = Table.get Document.id w.db.documents pk
  versions : (w'.db.versions.filter fun v => v.document = pk) =
    w.db.versions.filter fun v => v.document = pk
  texts : ∀ v ∈ w.db.versions, v.document = pk → w'.fileText v = w.fileText v
  images : (w'.db.images.filter fun image => image.document = pk) =
    w.db.images.filter fun image => image.document = pk

theorem Untouched.trans {pk : ℕ} {w w' w'' : World} (h : Untouched pk w w')
    (h' : Untouched pk w' w'') : Untouched pk w w'' where
  row := h'.row.trans h.row
  versions := h'.versions.trans h.versions
  texts := by
    intro v hv hown
    have hmem : v ∈ w'.db.versions := by
      have hin : v ∈ w.db.versions.filter fun v => v.document = pk :=
        List.mem_filter.mpr ⟨hv, decide_eq_true hown⟩
      rw [← h.versions] at hin
      exact List.mem_of_mem_filter hin
    exact (h'.texts v hmem hown).trans (h.texts v hv hown)
  images := h'.images.trans h.images

/-- The text of a document's head. -/
def World.headOf (w : World) (pk : ℕ) : Option Str :=
  (Table.get Document.id w.db.documents pk).map w.readHead

/-- A write that returns leaves its text behind the head of its document, and the rest alone. -/
structure Wrote (pk : ℕ) (text : Str) (w w' : World) : Prop where
  head : w'.headOf pk = some text
  updated : ∀ doc, Table.get Document.id w'.db.documents pk = some doc → w.now ≤ doc.updatedAt
  others : ∀ n, n ≠ pk → Untouched n w w'
  images : w'.db.images = w.db.images
  nextImage : w'.db.nextImage = w.db.nextImage
  now : w.now ≤ w'.now

section Writes

variable {w w' : World} {pk : ℕ} {doc : Document}

theorem get_withVersion (n : ℕ) (text description : Str) (origin : Origin) :
    Table.get Document.id (w.withVersion env doc text description origin).db.documents n =
      if n = doc.id then (Table.get Document.id w.db.documents doc.id).map
        (withHead (newRow env w doc text description origin) w.now)
      else Table.get Document.id w.db.documents n := by
  have hid : ∀ d, (withHead (newRow env w doc text description origin) w.now d).id = d.id :=
    fun _ => rfl
  rw [withVersion_documents, Table.get_alter hid]

theorem wrote_withVersion (hw : Tidy w)
    (hget : Table.get Document.id w.db.documents doc.id = some doc) (text description : Str)
    (origin : Origin) : Wrote doc.id text w (w.withVersion env doc text description origin) where
  head := by
    rw [World.headOf, get_withVersion, if_pos rfl, hget, Option.map_some, Option.map_some,
      readHead_withVersion env hw]
  updated d hd := by
    rw [get_withVersion, if_pos rfl, hget, Option.map_some, Option.some.injEq] at hd
    rw [← hd]
    exact le_rfl
  others n hn :=
    { row := by rw [get_withVersion, if_neg hn]
      versions := by
        have hnone : ([newRow env w doc text description origin].filter fun v =>
            v.document = n) = [] := by
          rw [List.filter_eq_nil_iff]
          intro v hv
          rw [List.mem_singleton.mp hv, decide_eq_true_eq]
          exact hn.symm
        rw [withVersion_versions, List.filter_append, hnone, List.append_nil]
      texts := fun v hv _ => fileText_of_grown withVersion_grown (hw.stored v hv)
      images := rfl }
  images := rfl
  nextImage := rfl
  now := Int.le_add_one le_rfl

theorem get_overwritten {v : DocumentVersion} (n : ℕ) (text : Str) (origin : Origin) :
    Table.get Document.id (w.overwritten env pk v text origin).db.documents n =
      if n = pk then (Table.get Document.id w.db.documents pk).map
        (withText (stripFrontmatter env.unicode text) w.now)
      else Table.get Document.id w.db.documents n := by
  have hid : ∀ d, (withText (stripFrontmatter env.unicode text) w.now d).id = d.id :=
    fun _ => rfl
  rw [World.overwritten, Table.get_alter hid]

theorem wrote_overwritten (hw : Tidy w) (howned : Owned w)
    (hget : Table.get Document.id w.db.documents doc.id = some doc) {v : DocumentVersion}
    (hhead : headVersion w.db doc = some v) (text : Str) (origin : Origin) :
    Wrote doc.id text w (w.overwritten env doc.id v text origin) := by
  obtain ⟨n, hpoints, hgetv⟩ := Option.bind_eq_some_iff.mp hhead
  have hv : v ∈ w.db.versions := Table.get_mem hgetv
  have hown : v.document = doc.id := by
    refine howned.own doc (Table.get_mem hget) v hv ?_
    rw [hpoints, Table.key_of_get hgetv]
  have hothers : ∀ u ∈ w.db.versions, u.document ≠ doc.id → u.id ≠ v.id := by
    intro u hu hne heq
    exact hne (hw.heads.versions.eq_of_key hu hv heq ▸ hown)
  exact
    { head := by
        rw [World.headOf, get_overwritten, if_pos rfl, hget, Option.map_some, Option.map_some,
          readHead_overwritten env hw hhead]
      updated := by
        intro d hd
        rw [get_overwritten, if_pos rfl, hget, Option.map_some, Option.some.injEq] at hd
        rw [← hd]
        exact le_rfl
      others := fun n hn =>
        { row := by rw [get_overwritten, if_neg hn]
          versions := Table.filter_alter fun u hu hid => by
            have hsame : u.document = doc.id := by
              by_contra hne
              exact hothers u hu hne hid
            have hne : u.document ≠ n := hsame ▸ hn.symm
            exact ⟨decide_eq_false hne, decide_eq_false hne⟩
          texts := by
            intro u hu hdocument
            have hfile : v.file ≠ u.file := fun heq =>
              hothers u hu (hdocument ▸ hn)
                (congrArg DocumentVersion.id (howned.files.eq_of_key hu hv heq.symm))
            simp [World.fileText, World.overwritten, List.getD_eq_getElem?_getD,
              List.getElem?_set_ne hfile]
          images := rfl }
      images := rfl
      nextImage := rfl
      now := Int.le_add_one le_rfl }

theorem mdFile_ok {body : Text} {text : Str} (h : mdFile body w = .ok text w') :
    encode body = some text ∧ w' = w := by
  rw [mdFile] at h
  cases htext : encode body with
  | none =>
    rw [htext] at h
    cases h
  | some t =>
    rw [htext] at h
    obtain ⟨rfl, rfl⟩ := EStateM.Result.ok.inj h
    exact ⟨rfl, rfl⟩

theorem createNewVersion_ok {text description : Str} {origin : Origin}
    (hget : Table.get Document.id w.db.documents pk = some doc)
    (h : createNewVersion env pk text description origin w = .ok () w') :
    w' = w.withVersion env doc text description origin := by
  rw [createNewVersion_some hget] at h
  by_cases hdup : (w.db.versions.any fun v =>
      v.document = pk && v.version = nextVersionNumber w.db doc) = true
  · rw [if_pos hdup] at h
    cases h
  · rw [if_neg hdup] at h
    exact (EStateM.Result.ok.inj h).2.symm

/-- A write that returns has had a document and a text that can be encoded, and left one of the
two states. -/
theorem writeVersion_ok {body : Text} {mode : WriteMode} {description : Str} {origin : Origin}
    {bypassLock : Bool} (hrun : writeVersion env pk body mode description origin bypassLock w =
      .ok () w') :
    ∃ doc text, Table.get Document.id w.db.documents pk = some doc ∧
      encode (mode.text (w.readHead doc) body) = some text ∧
      ((∃ v, headVersion w.db doc = some v ∧ w' = w.overwritten env pk v text origin) ∨
        w' = w.withVersion env doc text description origin) := by
  cases hget : Table.get Document.id w.db.documents pk with
  | none =>
    rw [writeVersion_noDocument hget] at hrun
    cases hrun
  | some doc =>
    cases hcheck : checkWritable w.db doc origin.actor bypassLock with
    | error e =>
      rw [writeVersion_refused hget hcheck] at hrun
      cases hrun
    | ok _ =>
      have hatomic := ok_of_atomic ((writeVersion_allowed hget hcheck).symm.trans hrun)
      cases hmode : mode.inPlace with
      | true =>
        rw [hmode, if_pos rfl] at hatomic
        cases hhead : headVersion w.db doc with
        | none =>
          rw [overwriteHead_none hget hhead] at hatomic
          cases hatomic
        | some v =>
          cases htext : encode (mode.text (w.readHead doc) body) with
          | none =>
            rw [overwriteHead_unencodable hget hhead htext] at hatomic
            cases hatomic
          | some text =>
            rw [overwriteHead_some hget hhead htext] at hatomic
            obtain ⟨-, rfl⟩ := EStateM.Result.ok.inj hatomic
            exact ⟨doc, text, rfl, htext, .inl ⟨v, hhead, rfl⟩⟩
      | false =>
        rw [hmode, if_neg Bool.false_ne_true] at hatomic
        obtain ⟨text, w₁, hfile, hversion⟩ := exists_of_bind_eq_ok hatomic
        obtain ⟨htext, rfl⟩ := mdFile_ok hfile
        exact ⟨doc, text, rfl, htext, .inr (createNewVersion_ok hget hversion)⟩

theorem wrote_writeVersion {body : Text} {mode : WriteMode} {description : Str} {origin : Origin}
    {bypassLock : Bool} (hw : Tidy w) (howned : Owned w)
    (hget : Table.get Document.id w.db.documents pk = some doc)
    (hrun : writeVersion env pk body mode description origin bypassLock w = .ok () w') :
    ∃ text, encode (mode.text (w.readHead doc) body) = some text ∧ Wrote pk text w w' := by
  obtain ⟨d, text, hd, htext, hstate⟩ := writeVersion_ok hrun
  obtain rfl : d = doc := Option.some.inj (hd.symm.trans hget)
  obtain rfl : d.id = pk := Table.key_of_get hget
  refine ⟨text, htext, ?_⟩
  rcases hstate with ⟨v, hhead, rfl⟩ | rfl
  · exact wrote_overwritten hw howned hget hhead text origin
  · exact wrote_withVersion hw hget text description origin

end Writes

/-! ### What a put does -/

/-- The text a put stores: its body in a new document, else what the mode makes of it. -/
def Put.text (p : Put) (w : World) (rb : Runbook) : Text :=
  match findDocument w.db rb.id p.key with
  | none => p.body
  | some doc => p.onExists.mode.text (w.readHead doc) p.body

/-- The document a put writes. -/
def Put.target (p : Put) (w : World) (rb : Runbook) : ℕ :=
  match findDocument w.db rb.id p.key with
  | none => w.db.nextDocument
  | some doc => doc.id

section Puts

variable {w w' : World} {pk : ℕ} {p : Put} {rb : Runbook} {doc : Document}

/-- A change of one row, beside the histories, before a write to its document. -/
theorem Wrote.after_altered {update : Document → Document} {now : ℤ} {text : Str}
    (hface : ∀ d, face (update d) = face d) (hnow : w.now ≤ now)
    (h : Wrote pk text (w.altered pk update now) w') : Wrote pk text w w' where
  head := h.head
  updated d hd := hnow.trans (h.updated d hd)
  others n hn := by
    have hrow : Table.get Document.id (w.altered pk update now).db.documents n =
        Table.get Document.id w.db.documents n :=
      (Table.get_alter fun d => id_of_face (hface d)).trans (if_neg hn)
    have hfirst : Untouched n w (w.altered pk update now) := ⟨hrow, rfl, fun _ _ _ => rfl, rfl⟩
    exact hfirst.trans (h.others n hn)
  images := h.images
  nextImage := h.nextImage
  now := hnow.trans h.now

theorem wrote_update {sec : Option Section} (hw : Tidy w) (howned : Owned w)
    (hget : Table.get Document.id w.db.documents doc.id = some doc)
    (hrun : p.update env sec doc w = .ok pk w') :
    pk = doc.id ∧ ∃ text, encode (p.onExists.mode.text (w.readHead doc) p.body) = some text ∧
      Wrote doc.id text w w' := by
  obtain ⟨update, now, hupdate, hface, -, hnow⟩ := update_run env p sec w doc
  have haside : Aside w (w.altered doc.id update now) := aside_altered hface now
  have howns := owns_aside haside
  rw [hupdate] at hrun
  obtain ⟨_, w₁, hwrite, hreturn⟩ := exists_of_bind_eq_ok hrun
  obtain ⟨rfl, rfl⟩ := EStateM.Result.ok.inj hreturn
  obtain ⟨text, htext, hwrote⟩ := wrote_writeVersion (howns.tidy hw) (howns.owned hw howned)
    (get_altered (fun d => id_of_face (hface d)) now hget) hwrite
  rw [readHead_aside haside (hface doc)] at htext
  exact ⟨rfl, text, htext, hwrote.after_altered hface hnow⟩

/-- A new document, before its first version. -/
theorem Wrote.after_withDocument {text : Str}
    (h : Wrote doc.id text (w.withDocument doc) w') : Wrote doc.id text w w' where
  head := h.head
  updated d hd := (Int.le_add_one le_rfl).trans (h.updated d hd)
  others n hn := by
    have hrow : Table.get Document.id (w.withDocument doc).db.documents n =
        Table.get Document.id w.db.documents n :=
      Table.get_append_of_ne doc fun heq => hn heq.symm
    have hfirst : Untouched n w (w.withDocument doc) := ⟨hrow, rfl, fun _ _ _ => rfl, rfl⟩
    exact hfirst.trans (h.others n hn)
  images := h.images
  nextImage := h.nextImage
  now := (Int.le_add_one le_rfl).trans h.now

theorem orRaise_ok {x : Except Exc α} {a : α} (h : orRaise x w = .ok a w') :
    x = .ok a ∧ w' = w := by
  cases x with
  | error e => cases h
  | ok b =>
    obtain ⟨rfl, rfl⟩ := EStateM.Result.ok.inj h
    exact ⟨rfl, rfl⟩

theorem insertDocument_ok {row : ℕ → ℤ → Document} (h : insertDocument env row w = .ok pk w') :
    pk = (insertedRow env w row).id ∧ w' = w.withDocument (insertedRow env w row) := by
  rw [insertDocument_run] at h
  by_cases htaken : keyTaken w.db (insertedRow env w row) = true
  · rw [if_pos htaken] at h
    cases h
  · rw [if_neg htaken] at h
    obtain ⟨rfl, rfl⟩ := EStateM.Result.ok.inj h
    exact ⟨rfl, rfl⟩

theorem wrote_create {body : Text} {fields : NewDocument} {origin : Origin} (hw : Tidy w)
    (hrun : createDocument env rb body fields origin w = .ok pk w') :
    pk = w.db.nextDocument ∧ ∃ text, encode body = some text ∧ Wrote pk text w w' := by
  obtain ⟨_, w₁, hadd, hrun₁⟩ := exists_of_bind_eq_ok hrun
  obtain ⟨-, rfl⟩ := orRaise_ok hadd
  obtain ⟨db, w₂, hdb, hrun₂⟩ := exists_of_bind_eq_ok hrun₁
  obtain ⟨rfl, rfl⟩ := EStateM.Result.ok.inj hdb
  obtain ⟨sec, w₃, hsec, hrun₃⟩ := exists_of_bind_eq_ok hrun₂
  obtain ⟨-, rfl⟩ := orRaise_ok hsec
  obtain ⟨n, w₄, hinsert, hrun₄⟩ := exists_of_bind_eq_ok hrun₃
  obtain ⟨text, w₅, hfile, hrun₅⟩ := exists_of_bind_eq_ok hrun₄
  obtain ⟨htext, rfl⟩ := mdFile_ok hfile
  obtain ⟨_, w₆, hversion, hreturn⟩ := exists_of_bind_eq_ok hrun₅
  obtain ⟨rfl, rfl⟩ := EStateM.Result.ok.inj hreturn
  have hnew : NewRow (fields.row rb sec origin) := ⟨fun _ _ => rfl, fun _ _ => rfl, fun _ _ => rfl⟩
  have howns : Moves Owns Owns (insertDocument env (fields.row rb sec origin)) :=
    owns_insertDocument hnew
  have hmoved := howns w₃
  rw [hinsert] at hmoved
  obtain ⟨rfl, rfl⟩ := insertDocument_ok hinsert
  have hget : Table.get Document.id
      (w₃.withDocument (insertedRow env w₃ (fields.row rb sec origin))).db.documents
        (insertedRow env w₃ (fields.row rb sec origin)).id =
      some (insertedRow env w₃ (fields.row rb sec origin)) :=
    Table.get_of_mem (hmoved.tidy hw).heads.documents
      (List.mem_append_right _ (List.mem_singleton.mpr rfl))
  obtain rfl := createNewVersion_ok hget hversion
  exact ⟨hnew.inserted_id w₃, text, htext,
    (wrote_withVersion (hmoved.tidy hw) hget text [] origin).after_withDocument⟩

theorem wrote_put (hw : Tidy w) (howned : Owned w)
    (hrb : resolveRunbook w.db p.runbook = .ok rb) (hrun : putDocument env p w = .ok pk w') :
    pk = p.target w rb ∧ ∃ text, encode (p.text w rb) = some text ∧ Wrote pk text w w' := by
  rw [Put.target, Put.text]
  cases hfind : findDocument w.db rb.id p.key with
  | none =>
    rw [putDocument_create hrb hfind] at hrun
    exact wrote_create hw (ok_of_atomic hrun)
  | some doc =>
    have hget := Table.get_of_mem hw.heads.documents (List.mem_of_find?_eq_some hfind)
    cases hchecks : p.checks w.db doc with
    | error e =>
      rw [putDocument_refused hrb hfind hchecks] at hrun
      cases hrun
    | ok _ =>
      cases hsec : resolveSection w.db rb p.sec with
      | error e =>
        rw [putDocument_noSection hrb hfind hchecks hsec] at hrun
        cases hrun
      | ok sec =>
        rw [putDocument_update hrb hfind hchecks hsec] at hrun
        obtain ⟨rfl, hwrote⟩ := wrote_update hw howned hget (ok_of_atomic hrun)
        exact ⟨rfl, hwrote⟩

end Puts

/-! ### The images of a copy -/

/-- The images of a list that a text shows. -/
def shownIn (body : Str) (images : List DocumentImage) : List DocumentImage :=
  images.filter fun image => serveUrl image.id <:+: body

/-- The text with the URL of each image turned into that of its copy. -/
def reshown (images copies : List DocumentImage) (body : Str) : Str :=
  (images.zip copies).foldl
    (fun text p => replaceText (serveUrl p.1.id) (serveUrl p.2.id) text) body

/-- The row `DocumentImage.objects.create` inserts. -/
def newImage (w : World) (document : ℕ) (data : Blob) (ext alt : Str) (actor : Option Actor) :
    DocumentImage where
  id := w.db.nextImage
  document := document
  data := data
  ext := ext
  alt := alt
  uploadedBy := actor.bind Actor.id
  createdAt := w.now

def World.withImage (w : World) (image : DocumentImage) : World where
  db := { w.db with
    images := w.db.images ++ [image]
    nextImage := w.db.nextImage + 1 }
  disk := w.disk
  now := w.now + 1

/-- The images a call adds for a document, each with the bytes of one of a list. -/
structure Cloned (target : ℕ) (images copies : List DocumentImage) (w w' : World) : Prop where
  db : w'.db = { w.db with
    images := w.db.images ++ copies
    nextImage := w.db.nextImage + copies.length }
  disk : w'.disk = w.disk
  now : w.now ≤ w'.now
  same : List.Forall₂ (fun image copy => copy.document = target ∧ copy.data = image.data)
    images copies
  fresh : ∀ copy ∈ copies, w.db.nextImage ≤ copy.id

theorem Cloned.cons {target : ℕ} {image copy : DocumentImage} {images copies : List DocumentImage}
    {w w' : World} (h : Cloned target images copies (w.withImage copy) w')
    (hid : copy.id = w.db.nextImage) (hdocument : copy.document = target)
    (hdata : copy.data = image.data) : Cloned target (image :: images) (copy :: copies) w w' where
  db := by
    rw [h.db, World.withImage, List.length_cons, List.append_assoc, Nat.add_right_comm,
      Nat.add_assoc]
    rfl
  disk := h.disk
  now := (Int.le_add_one le_rfl).trans h.now
  same := .cons ⟨hdocument, hdata⟩ h.same
  fresh := by
    intro i hi
    rcases List.mem_cons.mp hi with rfl | hi
    · exact hid.ge
    · exact (Nat.le_succ _).trans (h.fresh i hi)

theorem shownIn_replaceText {image copy : ℕ} {images : List DocumentImage} (body : Str)
    (h : ∀ i ∈ images, i.id ≠ image ∧ i.id ≠ copy) :
    shownIn (replaceText (serveUrl image) (serveUrl copy) body) images = shownIn body images :=
  List.filter_congr fun i hi => by
    simp only [infix_replaceText_serveUrl (h i hi).1 (h i hi).2]

theorem cloneImages_cloned {target : ℕ} {actor : Option Actor} {images : List DocumentImage}
    (body : Str) (w : World) (hnodup : Table.Unique DocumentImage.id images)
    (hfresh : ∀ image ∈ images, image.id < w.db.nextImage) :
    ∃ copies w', cloneImages env target actor images body w =
        .ok (reshown (shownIn body images) copies body) w' ∧
      Cloned target (shownIn body images) copies w w' := by
  induction images generalizing body w with
  | nil =>
    refine ⟨[], w, rfl, ?_, rfl, le_rfl, .nil, fun _ hcopy => absurd hcopy List.not_mem_nil⟩
    simp
  | cons image images ih =>
    obtain ⟨hnot, hnodup'⟩ := List.nodup_cons.mp hnodup
    by_cases hshown : serveUrl image.id <:+: body
    · have hrun : cloneImages env target actor (image :: images) body w = (do
          let pk ← insertImage target image.data (storedExtension env.unicode image.ext)
            image.alt actor
          cloneImages env target actor images
            (replaceText (serveUrl image.id) (serveUrl pk) body) : Py Str) w := by
        rw [cloneImages, if_pos hshown]
      rw [bind_of_ok (insertImage_run _ _ _ _ _ _)] at hrun
      have hbefore : shownIn (replaceText (serveUrl image.id) (serveUrl w.db.nextImage) body)
          images = shownIn body images := by
        refine shownIn_replaceText body fun i hi => ⟨fun heq => hnot ?_, ?_⟩
        · exact heq ▸ List.mem_map_of_mem hi
        · exact (hfresh i (List.mem_cons_of_mem _ hi)).ne
      let copy := newImage w target image.data (storedExtension env.unicode image.ext) image.alt
        actor
      obtain ⟨copies, w', hrest, hcloned⟩ := ih
        (replaceText (serveUrl image.id) (serveUrl w.db.nextImage) body) (w.withImage copy) hnodup'
        fun i hi => (hfresh i (List.mem_cons_of_mem _ hi)).trans (Nat.lt_succ_self _)
      rw [hbefore] at hrest hcloned
      have hshownIn : shownIn body (image :: images) = image :: shownIn body images :=
        List.filter_cons_of_pos (by simpa using hshown)
      rw [hrun, hshownIn]
      exact ⟨copy :: copies, w', hrest, hcloned.cons rfl rfl rfl⟩
    · have hrun : cloneImages env target actor (image :: images) body w =
          cloneImages env target actor images body w := by
        rw [cloneImages, if_neg hshown]
      have hshownIn : shownIn body (image :: images) = shownIn body images :=
        List.filter_cons_of_neg (by simpa using hshown)
      rw [hrun, hshownIn]
      exact ih body w hnodup' fun i hi => hfresh i (List.mem_cons_of_mem _ hi)

/-! ### The text of an append -/

theorem ofStr_injective : Function.Injective Text.ofStr := by
  intro s t h
  have hencode := congrArg encode h
  rw [encode_ofStr, encode_ofStr] at hencode
  exact Option.some.inj hencode

theorem ofStr_append (s t : Str) : Text.ofStr (s ++ t) = Text.ofStr s ++ Text.ofStr t :=
  List.map_append

theorem strip_ofStr (s : Str) : (Text.ofStr s).strip = Text.ofStr (strip s) := by
  have hdrop : ∀ t : Str, (Text.ofStr t).dropWhile CodePoint.isSpace = Text.ofStr (lstrip t) :=
    fun t => List.dropWhile_map
  have hreverse : ∀ t : Str, (Text.ofStr t).reverse = Text.ofStr t.reverse :=
    fun t => List.map_reverse.symm
  rw [Text.strip, hdrop, hreverse, hdrop, hreverse]
  rfl

theorem appended_ofStr (head s : Str) : appended head (Text.ofStr s) = Text.ofStr
    ((rstrip head ++ ['\n', '\n'] ++ strip s ++ ['\n']).dropWhile (· = '\n')) := by
  rw [appended, strip_ofStr, ← ofStr_append, ← ofStr_append]
  rw [Text.ofStr, List.dropWhile_map, Text.ofStr]
  congr 2
  funext c
  simp

/-- A text begins with no white space and ends with one line break behind something else. -/
def Line (s : Str) : Prop :=
  (∀ c ∈ s.head?, isSpace c = false) ∧ ∃ c, isSpace c = false ∧ [c, '\n'] <:+ s

theorem line_iff {s : Str} (h : inked s ≠ 0) : strip s ++ ['\n'] = s ↔ Line s := by
  constructor
  · intro heq
    have hne : strip s ≠ [] := by
      intro hnil
      rw [← inked_strip, hnil] at h
      exact h rfl
    have hlast := strip_last (List.getLast?_eq_some_getLast hne)
    refine ⟨fun c hc => ?_, (strip s).getLast hne, hlast, (strip s).dropLast, ?_⟩
    · rw [← heq, List.head?_append_of_ne_nil _ hne] at hc
      exact strip_head hc
    · conv_rhs => rw [← heq, ← List.dropLast_append_getLast hne]
      rw [List.append_assoc]
      rfl
  · rintro ⟨hhead, c, hc, front, rfl⟩
    have hfront : lstrip (front ++ [c, '\n']) = front ++ [c, '\n'] := by
      cases hs : front ++ [c, '\n'] with
      | nil => rfl
      | cons d rest =>
        rw [hs] at hhead
        rw [lstrip, List.dropWhile_cons_of_neg]
        simp [hhead d rfl]
    have hsplit : front ++ [c, '\n'] = front ++ [c] ++ ['\n'] := by simp
    rw [strip, hfront, hsplit, rstrip_append_space (by decide), rstrip_of_last hc]

/-- An append leaves a text as it is when there is nothing it is appended to, and the text is in
the form that appends leave. -/
theorem appended_eq_self_iff {head s : Str} (h : inked s ≠ 0) :
    appended head (Text.ofStr s) = Text.ofStr s ↔ rstrip head = [] ∧ Line s := by
  rw [appended_ofStr, ofStr_injective.eq_iff, ← line_iff h]
  have hne : strip s ≠ [] := by
    intro hnil
    rw [← inked_strip, hnil] at h
    exact h rfl
  by_cases hblank : rstrip head = []
  · obtain ⟨d, rest, hstrip⟩ := List.exists_cons_of_ne_nil hne
    have hd : isSpace d = false := strip_head (by rw [hstrip]; rfl)
    have hbreak : d ≠ '\n' := by
      rintro rfl
      exact absurd hd (by decide)
    simp [hblank, hstrip, hbreak]
  · -- the old text would have to be part of what is appended
    have hdiffer : (rstrip head ++ ['\n', '\n'] ++ strip s ++ ['\n']).dropWhile (· = '\n') ≠ s := by
      intro heq
      have hinked := congrArg inked heq
      rw [inked_dropWhile (by simp; decide), inked_append, inked_append, inked_append, inked_strip,
        inked_rstrip] at hinked
      have hbreaks : inked ['\n', '\n'] = 0 ∧ inked ['\n'] = 0 := by decide
      exact hblank (rstrip_eq_nil_iff.mpr (by omega))
    simp only [hblank, hdiffer, false_and]

/-! ### The text that shows the copies -/

theorem inked_serveUrl (pk : ℕ) : inked (serveUrl pk) ≠ 0 := by
  obtain ⟨middle, heq, -⟩ := serveUrl_ends pk
  rw [heq, inked, List.countP_cons_of_pos (by decide)]
  exact Nat.succ_ne_zero _

theorem Replaced.inked_ne_zero {old new s t : Str} (h : Replaced old new s t)
    (hnew : inked new ≠ 0) (hs : inked s ≠ 0) : inked t ≠ 0 := by
  induction h with
  | nil => exact hs
  | @keep c s t hkeep rest ih =>
    simp only [inked, List.countP_cons] at hs ih ⊢
    by_cases hc : (!isSpace c) = true
    · simp [hc]
    · simp only [hc] at hs ⊢
      exact ih hs
  | swap rest ih =>
    rw [inked_append]
    omega

theorem inked_ne_zero_of_shown {pk : ℕ} {s : Str} (h : serveUrl pk <:+: s) : inked s ≠ 0 := by
  obtain ⟨front, back, rfl⟩ := h
  rw [inked_append, inked_append]
  have hurl := inked_serveUrl pk
  omega

theorem line_replaceText (image copy : ℕ) (s : Str) :
    Line (replaceText (serveUrl image) (serveUrl copy) s) ↔ Line s := by
  have h : Replaced (serveUrl image) (serveUrl copy) s _ :=
    replaced_replaceText (lone_serveUrl image).nonempty s
  have himage := bordered_serveUrl image
  have hcopy := bordered_serveUrl copy
  rw [Line, Line, h.head?_eq himage.left hcopy.left]
  simp only [h.pair_suffix_iff himage hcopy (by decide : '\n' ≠ '/')]

section Reshown

variable {images copies : List DocumentImage}

theorem line_reshown (body : Str) : Line (reshown images copies body) ↔ Line body := by
  rw [reshown]
  induction images.zip copies generalizing body with
  | nil => rfl
  | cons p pairs ih => exact (ih _).trans (line_replaceText _ _ _)

theorem inked_reshown {body : Str} (h : inked body ≠ 0) :
    inked (reshown images copies body) ≠ 0 := by
  rw [reshown]
  induction images.zip copies generalizing body with
  | nil => exact h
  | cons p pairs ih =>
    exact ih ((replaced_replaceText (lone_serveUrl _).nonempty body).inked_ne_zero
      (inked_serveUrl _) h)

theorem starts_reshown {pk : ℕ} (himages : ∀ image ∈ images, image.id ≠ pk)
    (hcopies : ∀ copy ∈ copies, copy.id ≠ pk) (body : Str) :
    starts (serveUrl pk) (reshown images copies body) = starts (serveUrl pk) body := by
  rw [reshown]
  have hpairs : ∀ p ∈ images.zip copies, p.1.id ≠ pk ∧ p.2.id ≠ pk := fun p hp =>
    ⟨himages _ (List.of_mem_zip hp).1, hcopies _ (List.of_mem_zip hp).2⟩
  generalize images.zip copies = pairs at hpairs ⊢
  induction pairs generalizing body with
  | nil => rfl
  | cons p pairs ih =>
    obtain ⟨himage, hcopy⟩ := hpairs p List.mem_cons_self
    rw [List.foldl_cons, ih _ fun q hq => hpairs q (List.mem_cons_of_mem p hq)]
    exact ((replaced_replaceText (lone_serveUrl _).nonempty body).starts_eq (bordered_serveUrl _)
      (bordered_serveUrl _) (meet_serveUrl himage.symm) (meet_serveUrl hcopy.symm)).symm

/-- The text of the copy is the source's only when no image is shown. -/
theorem reshown_eq_self_iff {n : ℕ} {body : Str} (hunique : Table.Unique DocumentImage.id images)
    (hold : ∀ image ∈ images, image.id < n) (hnew : ∀ copy ∈ copies, n ≤ copy.id)
    (hlength : images.length = copies.length)
    (hshown : ∀ image ∈ images, serveUrl image.id <:+: body) :
    reshown images copies body = body ↔ images = [] := by
  constructor
  · intro heq
    cases images with
    | nil => rfl
    | cons image images =>
      cases copies with
      | nil => cases hlength
      | cons copy copies =>
        have hnot := (List.nodup_cons.mp hunique).1
        have hfresh : image.id < copy.id := lt_of_lt_of_le (hold image List.mem_cons_self)
          (hnew copy List.mem_cons_self)
        have hfirst : Replaced (serveUrl image.id) (serveUrl copy.id) body _ :=
          replaced_replaceText (lone_serveUrl image.id).nonempty body
        have hless := (hfirst.starts_le (lone_serveUrl image.id) (bordered_serveUrl _)
          (meet_serveUrl hfresh.ne)).2 (hshown image List.mem_cons_self)
        have himages : ∀ i ∈ images, i.id ≠ image.id := fun i hi hid =>
          hnot (hid ▸ List.mem_map_of_mem hi)
        have hcopies : ∀ i ∈ copies, i.id ≠ image.id := fun i hi =>
          (lt_of_lt_of_le (hold image List.mem_cons_self)
            (hnew i (List.mem_cons_of_mem _ hi))).ne'
        have hrest := starts_reshown himages hcopies
          (replaceText (serveUrl image.id) (serveUrl copy.id) body)
        have hwhole : reshown images copies
            (replaceText (serveUrl image.id) (serveUrl copy.id) body) = body := heq
        rw [hwhole] at hrest
        exact absurd hrest hless.ne'
  · rintro rfl
    rfl

end Reshown

/-! ### A copy -/

/-- What the tables promise: image keys are primary keys, each below the next, and the time of an
update lies in the past. -/
structure Stored (w : World) : Prop where
  images : Table.Unique DocumentImage.id w.db.images
  freshImage : ∀ image ∈ w.db.images, image.id < w.db.nextImage
  past : ∀ doc ∈ w.db.documents, doc.updatedAt < w.now

/-- The put of a copy, with a body. -/
def Copy.put (c : Copy) (rb : Runbook) (src : Document) (body : Text) : Put where
  runbook := rb.slug
  key := c.toKey
  body := body
  title := some (c.title.elim src.title fun title => if title = [] then src.title else title)
  sec := c.sec
  onExists := c.onExists
  docType := src.docType
  origin := { source := src.source, via := c.via, actor := c.actor }

/-- The images that the source's text shows. -/
def World.shown (w : World) (src : Document) : List DocumentImage :=
  shownIn (w.readHead src) (imagesOf w.db src.id)

/-- The rows that a call adds to the table of images. -/
def added (w w' : World) : List DocumentImage := w'.db.images.drop w.db.images.length

/-- A copy gives the target an image for each that the source shows, and the text that a put of the
source's text with these images gives, and leaves the source alone. -/
structure Honoured (c : Copy) (src : Document) (rb : Runbook) (w : World) (pk : ℕ) (w' : World) :
    Prop where
  kept : w.db.images <+: w'.db.images
  images : List.Forall₂ (fun image copy => copy.document = pk ∧ copy.data = image.data)
    (w.shown src) (added w w')
  text : encode ((c.put rb src (Text.ofStr
    (reshown (w.shown src) (added w w') (w.readHead src)))).text w rb) = w'.headOf pk
  source : Untouched src.id w w'

/-- Where a target stands it is not the source, and an append either has no image to show or
nothing to append to. -/
def Copy.Keeps (c : Copy) (src : Document) (rb : Runbook) (w : World) : Prop :=
  ∀ doc, findDocument w.db rb.id c.toKey = some doc → doc.id ≠ src.id ∧
    (c.onExists = .append ∨ c.onExists = .appendVersion →
      w.shown src = [] ∨ (rstrip (w.readHead doc) = [] ∧ Line (w.readHead src)))

section Copying

variable {c : Copy} {src : Document} {rb : Runbook} {w w' : World} {pk : ℕ}

theorem resolveRunbook_slug {db : Db} {slug : Str} (h : resolveRunbook db slug = .ok rb) :
    resolveRunbook db rb.slug = .ok rb := by
  rw [resolveRunbook] at h
  cases hget : Table.get Runbook.slug db.runbooks slug with
  | none =>
    rw [hget] at h
    cases h
  | some r =>
    rw [hget] at h
    obtain rfl := Except.ok.inj h
    rw [Table.key_of_get hget, resolveRunbook, hget]

/-- The three steps of a copy. -/
structure Copied (env : Env) (c : Copy) (src : Document) (rb : Runbook) (w : World) (pk : ℕ)
    (w₁ w₂ w' : World) (copies : List DocumentImage) : Prop where
  target : pk = (c.put rb src (Text.ofStr (w.readHead src))).target w rb
  put : ∃ text, encode ((c.put rb src (Text.ofStr (w.readHead src))).text w rb) = some text ∧
    Wrote pk text w w₁
  cloned : Cloned pk (w.shown src) copies w₁ w₂
  rewritten : (reshown (w.shown src) copies (w.readHead src) ≠ w.readHead src ∧
      Wrote pk (reshown (w.shown src) copies (w.readHead src)) w₂ w') ∨
    (reshown (w.shown src) copies (w.readHead src) = w.readHead src ∧ w' = w₂)

theorem imagesOf_perm (db : Db) (n : ℕ) :
    (imagesOf db n).Perm (db.images.filter fun image => image.document = n) :=
  List.perm_insertionSort _ _

theorem Cloned.owns {target : ℕ} {images copies : List DocumentImage} (h : Cloned target images
    copies w w') (hw : Tidy w) (howned : Owned w) : Tidy w' ∧ Owned w' := by
  have haside : Aside w w' :=
    ⟨by rw [h.db], by rw [h.db], by rw [h.db], by rw [h.db], h.disk⟩
  have howns := owns_aside haside
  exact ⟨howns.tidy hw, howns.owned hw howned⟩

theorem Wrote.get {text : Str} (h : Wrote pk text w w') :
    ∃ doc, Table.get Document.id w'.db.documents pk = some doc ∧ w'.readHead doc = text :=
  Option.map_eq_some_iff.mp h.head

theorem cloneReferencedImages_cloned {target : ℕ} {actor : Option Actor} {body rewritten : Str}
    (hunique : Table.Unique DocumentImage.id w.db.images)
    (hfresh : ∀ image ∈ w.db.images, image.id < w.db.nextImage)
    (hrun : cloneReferencedImages env body src.id target actor w = .ok rewritten w') :
    ∃ copies, rewritten = reshown (shownIn body (imagesOf w.db src.id)) copies body ∧
      Cloned target (shownIn body (imagesOf w.db src.id)) copies w w' := by
  have hperm := imagesOf_perm w.db src.id
  have hnodup : Table.Unique DocumentImage.id (imagesOf w.db src.id) :=
    (hperm.map DocumentImage.id).nodup_iff.mpr (hunique.sublist (List.filter_sublist.map _))
  obtain ⟨copies, w₂, hclone, hcloned⟩ := @cloneImages_cloned env target actor _ body w
    hnodup fun image himage => hfresh image (List.mem_of_mem_filter (hperm.mem_iff.mp himage))
  have hsame : cloneImages env target actor (imagesOf w.db src.id) body w = .ok rewritten w' := hrun
  obtain ⟨rfl, rfl⟩ := EStateM.Result.ok.inj (hclone.symm.trans hsame)
  exact ⟨copies, rfl, hcloned⟩

theorem copyDocument_ok (hw : Tidy w) (howned : Owned w) (hstored : Stored w)
    (hsrc : Table.get Document.id w.db.documents c.source = some src)
    (hrb : resolveRunbook w.db c.toRunbook = .ok rb) (hrun : copyDocument env c w = .ok pk w') :
    ∃ w₁ w₂ copies, Copied env c src rb w pk w₁ w₂ w' copies := by
  rw [copyDocument, bind_of_ok (loadDocument_some hsrc)] at hrun
  obtain ⟨db₁, s₁, hdb₁, hrun₁⟩ := exists_of_bind_eq_ok hrun
  obtain ⟨rfl, rfl⟩ := EStateM.Result.ok.inj hdb₁
  obtain ⟨_, s₂, hviewable, hrun₂⟩ := exists_of_bind_eq_ok hrun₁
  obtain ⟨-, rfl⟩ := orRaise_ok hviewable
  obtain ⟨db₂, s₃, hdb₂, hrun₃⟩ := exists_of_bind_eq_ok hrun₂
  obtain ⟨rfl, rfl⟩ := EStateM.Result.ok.inj hdb₂
  obtain ⟨r, s₄, hresolve, hrun₄⟩ := exists_of_bind_eq_ok hrun₃
  obtain ⟨hr, rfl⟩ := orRaise_ok hresolve
  obtain rfl := Except.ok.inj (hrb.symm.trans hr)
  obtain ⟨s₅, s₆, hget, hrun₅⟩ := exists_of_bind_eq_ok hrun₄
  obtain ⟨rfl, rfl⟩ := EStateM.Result.ok.inj hget
  obtain ⟨target, w₁, hput, hrun₆⟩ := exists_of_bind_eq_ok hrun₅
  obtain ⟨rewritten, w₂, hclone, hrun₇⟩ := exists_of_bind_eq_ok hrun₆
  obtain ⟨_, w₃, hrewrite, hreturn⟩ := exists_of_bind_eq_ok hrun₇
  obtain ⟨rfl, rfl⟩ := EStateM.Result.ok.inj hreturn
  have hput' : putDocument env (c.put rb src (Text.ofStr (s₄.readHead src))) s₄ = .ok target w₁ :=
    hput
  have howns := (owns_stable env).putDocument (c.put rb src (Text.ofStr (s₄.readHead src))) s₄
  rw [hput'] at howns
  obtain ⟨htarget, text, htext, hwrote⟩ := wrote_put hw howned (resolveRunbook_slug hrb) hput'
  obtain ⟨copies, hrewritten, hcloned⟩ := cloneReferencedImages_cloned
    (hwrote.images ▸ hstored.images)
    (by rw [hwrote.images, hwrote.nextImage]; exact hstored.freshImage) hclone
  have himages : imagesOf w₁.db src.id = imagesOf s₄.db src.id := by
    rw [imagesOf, imagesOf, hwrote.images]
  rw [himages] at hrewritten hcloned
  refine ⟨w₁, w₂, copies, htarget, ⟨text, htext, hwrote⟩, hcloned, ?_⟩
  rw [World.shown, ← hrewritten]
  by_cases hsame : rewritten ≠ s₄.readHead src
  · rw [rewriteCopy, if_pos hsame] at hrewrite
    obtain ⟨doc, hdoc, -⟩ := hwrote.get
    have hdoc' : Table.get Document.id w₂.db.documents target = some doc := by
      rw [hcloned.db]
      exact hdoc
    obtain ⟨htidy, howned'⟩ := hcloned.owns (howns.tidy hw) (howns.owned hw howned)
    obtain ⟨text', htext', hwrote'⟩ := wrote_writeVersion htidy howned' hdoc' hrewrite
    obtain rfl : rewritten = text' := by
      rw [WriteMode.text, encode_ofStr] at htext'
      exact Option.some.inj htext'
    exact .inl ⟨hsame, hwrote'⟩
  · rw [rewriteCopy, if_neg hsame] at hrewrite
    obtain ⟨-, rfl⟩ := EStateM.Result.ok.inj hrewrite
    exact .inr ⟨not_not.mp hsame, rfl⟩

section Outcome

variable {w₁ w₂ : World} {copies : List DocumentImage}

theorem Copied.images (h : Copied env c src rb w pk w₁ w₂ w' copies) :
    w'.db.images = w.db.images ++ copies := by
  obtain ⟨text, -, hput⟩ := h.put
  have hcloned : w₂.db.images = w.db.images ++ copies := by
    rw [h.cloned.db, hput.images]
  rcases h.rewritten with ⟨-, hwrote⟩ | ⟨-, rfl⟩
  · rw [hwrote.images, hcloned]
  · exact hcloned

theorem Copied.added (h : Copied env c src rb w pk w₁ w₂ w' copies) : added w w' = copies := by
  rw [CwStation.Documents.added, h.images, List.drop_left]

theorem Cloned.document {target : ℕ} {images : List DocumentImage}
    (h : Cloned target images copies w w') : ∀ copy ∈ copies, copy.document = target := by
  have hsame := h.same
  clear h
  induction hsame with
  | nil => exact fun copy hcopy => absurd hcopy List.not_mem_nil
  | cons hcopy rest ih =>
    intro copy hmem
    rcases List.mem_cons.mp hmem with rfl | hmem
    · exact hcopy.1
    · exact ih copy hmem

theorem Cloned.untouched {target n : ℕ} {images : List DocumentImage}
    (h : Cloned target images copies w w') (hn : n ≠ target) : Untouched n w w' where
  row := by rw [h.db]
  versions := by rw [h.db]
  texts v _ _ := by rw [World.fileText, World.fileText, h.disk]
  images := by
    have hnone : (copies.filter fun image => image.document = n) = [] := by
      rw [List.filter_eq_nil_iff]
      intro image himage
      rw [h.document image himage, decide_eq_true_eq]
      exact hn.symm
    rw [h.db, List.filter_append, hnone, List.append_nil]

/-- A source that is not the target is left alone. -/
theorem Copied.untouched (h : Copied env c src rb w pk w₁ w₂ w' copies) (hne : src.id ≠ pk) :
    Untouched src.id w w' := by
  obtain ⟨text, -, hput⟩ := h.put
  have hcloned := (hput.others src.id hne).trans (h.cloned.untouched hne)
  rcases h.rewritten with ⟨-, hwrote⟩ | ⟨-, rfl⟩
  · exact hcloned.trans (hwrote.others src.id hne)
  · exact hcloned

/-- A target gets a new time. -/
theorem Copied.updated (h : Copied env c src rb w pk w₁ w₂ w' copies) {doc : Document}
    (hdoc : Table.get Document.id w'.db.documents pk = some doc) : w.now ≤ doc.updatedAt := by
  obtain ⟨text, -, hput⟩ := h.put
  rcases h.rewritten with ⟨-, hwrote⟩ | ⟨-, rfl⟩
  · exact (hput.now.trans h.cloned.now).trans (hwrote.updated doc hdoc)
  · rw [h.cloned.db] at hdoc
    exact hput.updated doc hdoc

/-- The text behind the target's head: the text with the images, or what the put has left. -/
theorem Copied.head (h : Copied env c src rb w pk w₁ w₂ w' copies) :
    (reshown (w.shown src) copies (w.readHead src) ≠ w.readHead src →
      w'.headOf pk = some (reshown (w.shown src) copies (w.readHead src))) ∧
    (reshown (w.shown src) copies (w.readHead src) = w.readHead src →
      w'.headOf pk = encode ((c.put rb src (Text.ofStr (w.readHead src))).text w rb)) := by
  obtain ⟨text, htext, hput⟩ := h.put
  rcases h.rewritten with ⟨hne, hwrote⟩ | ⟨hsame, rfl⟩
  · exact ⟨fun _ => hwrote.head, fun hsame => absurd hsame hne⟩
  · refine ⟨fun hne => absurd hsame hne, fun _ => ?_⟩
    have hrow : w'.headOf pk = w₁.headOf pk := by
      have hread : w'.readHead = w₁.readHead := by
        funext doc
        simp only [World.readHead, headVersion, World.fileText, h.cloned.db, h.cloned.disk]
      rw [World.headOf, World.headOf, hread, h.cloned.db]
    rw [hrow, hput.head, htext]

theorem Copied.shown_eq_nil_iff (h : Copied env c src rb w pk w₁ w₂ w' copies)
    (hstored : Stored w) :
    reshown (w.shown src) copies (w.readHead src) = w.readHead src ↔ w.shown src = [] := by
  obtain ⟨text, -, hput⟩ := h.put
  have hperm := imagesOf_perm w.db src.id
  have hmem : ∀ image ∈ w.shown src, image ∈ w.db.images := fun image himage =>
    List.mem_of_mem_filter (hperm.mem_iff.mp (List.mem_of_mem_filter himage))
  have hnodup : Table.Unique DocumentImage.id (w.shown src) := by
    have hall : Table.Unique DocumentImage.id (imagesOf w.db src.id) :=
      (hperm.map DocumentImage.id).nodup_iff.mpr
        (hstored.images.sublist (List.filter_sublist.map _))
    exact hall.sublist (List.filter_sublist.map _)
  refine reshown_eq_self_iff hnodup (fun image himage => hstored.freshImage image (hmem _ himage))
    (fun copy hcopy => hput.nextImage ▸ h.cloned.fresh copy hcopy) h.cloned.same.length_eq ?_
  exact fun image himage => of_decide_eq_true (List.mem_filter.mp himage).2

end Outcome

theorem encode_eq_some_iff {t : Text} {s : Str} : encode t = some s ↔ t = Text.ofStr s := by
  constructor
  · intro h
    induction t generalizing s with
    | nil => rw [← Option.some.inj h]; rfl
    | cons p t ih =>
      cases p with
      | char c =>
        obtain ⟨rest, hrest, rfl⟩ := Option.map_eq_some_iff.mp h
        rw [ih hrest]
        rfl
      | surrogate n => cases h
  · rintro rfl
    exact encode_ofStr s

/-- A copy leaves its source alone exactly when that is not the target. -/
theorem Copied.untouched_iff {w₁ w₂ : World} {copies : List DocumentImage}
    (h : Copied env c src rb w pk w₁ w₂ w' copies) (hstored : Stored w)
    (hsrc : Table.get Document.id w.db.documents src.id = some src) :
    Untouched src.id w w' ↔ src.id ≠ pk := by
  refine ⟨fun hsource heq => ?_, h.untouched⟩
  have hrow := hsource.row
  rw [hsrc, heq] at hrow
  exact absurd (h.updated hrow) (hstored.past src (Table.get_mem hsrc)).not_ge

/-- The second write leaves what the mode asks for exactly when it does not follow an append, or
the append has added nothing. -/
theorem Copied.text_iff {w₁ w₂ : World} {copies : List DocumentImage}
    (h : Copied env c src rb w pk w₁ w₂ w' copies) (hstored : Stored w) :
    encode ((c.put rb src (Text.ofStr (reshown (w.shown src) copies (w.readHead src)))).text w rb) =
        w'.headOf pk ↔
      ∀ doc, findDocument w.db rb.id c.toKey = some doc →
        (c.onExists = .append ∨ c.onExists = .appendVersion →
          w.shown src = [] ∨ (rstrip (w.readHead doc) = [] ∧ Line (w.readHead src))) := by
  by_cases hnone : w.shown src = []
  · have hsame := (h.shown_eq_nil_iff hstored).mpr hnone
    rw [h.head.2 hsame, hsame]
    exact ⟨fun _ _ _ _ => .inl hnone, fun _ => rfl⟩
  · have hdiffer := mt (h.shown_eq_nil_iff hstored).mp hnone
    have hinked : inked (reshown (w.shown src) copies (w.readHead src)) ≠ 0 := by
      obtain ⟨image, himage⟩ := List.exists_mem_of_ne_nil _ hnone
      exact inked_reshown (inked_ne_zero_of_shown
        (of_decide_eq_true (List.mem_filter.mp himage).2))
    rw [h.head.1 hdiffer, encode_eq_some_iff, Put.text]
    have hkey : (c.put rb src (Text.ofStr (reshown (w.shown src) copies (w.readHead src)))).key =
        c.toKey := rfl
    rw [hkey]
    cases hfind : findDocument w.db rb.id c.toKey with
    | none => exact ⟨fun _ doc hdoc => absurd hdoc nofun, fun _ => rfl⟩
    | some doc =>
      have happended := @appended_eq_self_iff (w.readHead doc) _ hinked
      rw [line_reshown] at happended
      simp only [Copy.put, Option.some.injEq, forall_eq', hnone, false_or]
      cases hmode : c.onExists <;> simp [OnExists.mode, WriteMode.text, happended]

/-- A copy honours its mode exactly when its target is not its source, and an append shows no image
or has nothing to append to. -/
theorem copy_honoured_iff (hw : Tidy w) (howned : Owned w) (hstored : Stored w)
    (hsrc : Table.get Document.id w.db.documents c.source = some src)
    (hrb : resolveRunbook w.db c.toRunbook = .ok rb) (hrun : copyDocument env c w = .ok pk w') :
    Honoured c src rb w pk w' ↔ c.Keeps src rb w := by
  obtain ⟨w₁, w₂, copies, h⟩ := copyDocument_ok hw howned hstored hsrc hrb hrun
  have hget : Table.get Document.id w.db.documents src.id = some src :=
    (Table.key_of_get hsrc).symm ▸ hsrc
  have htarget : src.id ≠ pk ↔
      ∀ doc, findDocument w.db rb.id c.toKey = some doc → doc.id ≠ src.id := by
    have hkey : (c.put rb src (Text.ofStr (w.readHead src))).key = c.toKey := rfl
    rw [h.target, Put.target, hkey]
    cases findDocument w.db rb.id c.toKey with
    | none => simpa using (hw.heads.freshDocument src (Table.get_mem hget)).ne
    | some doc => simp [ne_comm]
  have hadded := h.added
  constructor
  · intro hhonoured doc hdoc
    have hsource := (h.untouched_iff hstored hget).mp hhonoured.source
    exact ⟨htarget.mp hsource doc hdoc,
      (h.text_iff hstored).mp (hadded ▸ hhonoured.text) doc hdoc⟩
  · intro hkeeps
    exact
      { kept := h.images ▸ List.prefix_append _ _
        images := hadded.symm ▸ h.cloned.same
        text := by
          rw [hadded]
          exact (h.text_iff hstored).mpr fun doc hdoc => (hkeeps doc hdoc).2
        source := h.untouched (htarget.mpr fun doc hdoc => (hkeeps doc hdoc).1) }

end Copying

/-! ### Copies on a site -/

/-- After any run of the app: a copy that returns honours its mode exactly when its target is not
its source, and an append shows no image or has nothing to append to. -/
theorem copies_honoured_iff (env : Env) (w : World) (ops : List Op) (hsite : w.Site)
    (hstored : Stored (run env ops w)) (c : Copy) (src : Document) (rb : Runbook) (pk : ℕ)
    (w' : World)
    (hsrc : Table.get Document.id (run env ops w).db.documents c.source = some src)
    (hrb : resolveRunbook (run env ops w).db c.toRunbook = .ok rb)
    (hrun : copyDocument env c (run env ops w) = .ok pk w') :
    Honoured c src rb (run env ops w) pk w' ↔ c.Keeps src rb (run env ops w) :=
  copy_honoured_iff (tidy_run env ops hsite) (owned_run env ops hsite) hstored hsrc hrb hrun

/-- A page with an image, and a page with a text. -/
def illustratedOps : List Op :=
  [.put { runbook := "notes".toList, key := "page".toList, body := Text.ofStr (serveUrl 1) },
    .attach 1 (.raw [1]) "a.png".toList [] none, putNote (Text.ofStr "old".toList) .newVersion]

def illustrated : World := run plainEnv illustratedOps oneRunbook

/-- A copy of the page with the image. -/
def copyPage (key : Str) (onExists : OnExists) : Copy where
  source := 1
  toRunbook := "notes".toList
  toKey := key
  onExists := onExists

def notesRunbook : Runbook := { id := 1, name := "Notes".toList, slug := "notes".toList }

/-- Appended to a page, the copy takes the place of its text. -/
theorem appended_copy_overwrites : ∃ src w',
    Table.get Document.id illustrated.db.documents 1 = some src ∧
    resolveRunbook illustrated.db "notes".toList = .ok notesRunbook ∧
    copyDocument plainEnv (copyPage "log".toList .append) illustrated = .ok 2 w' ∧
    ¬Honoured (copyPage "log".toList .append) src notesRunbook illustrated 2 w' := by
  have hsome : (Table.get Document.id illustrated.db.documents 1).isSome = true := by
    decide +kernel
  obtain ⟨src, hsrc⟩ := Option.isSome_iff_exists.mp hsome
  have houtcome : outcome (copyDocument plainEnv (copyPage "log".toList .append)) illustrated =
      .ok 2 := by
    decide +kernel
  obtain ⟨w', hrun⟩ := exists_of_outcome houtcome
  have hdiffer : ((Table.get Document.id illustrated.db.documents 1).all fun src =>
      encode (((copyPage "log".toList .append).put notesRunbook src (Text.ofStr
        (reshown (illustrated.shown src) (added illustrated (endState
          (copyDocument plainEnv (copyPage "log".toList .append)) illustrated))
            (illustrated.readHead src)))).text illustrated notesRunbook) ≠
        (endState (copyDocument plainEnv (copyPage "log".toList .append)) illustrated).headOf 2) =
      true := by
    decide +kernel
  rw [hsrc, endState_of_ok hrun] at hdiffer
  refine ⟨src, w', hsrc, by decide +kernel, hrun, fun h => ?_⟩
  exact of_decide_eq_true hdiffer h.text

/-- Under a new key the copy shows its own image. -/
theorem copy_to_new_key : ∃ src w',
    Table.get Document.id illustrated.db.documents 1 = some src ∧
    copyDocument plainEnv (copyPage "new".toList .append) illustrated = .ok 3 w' ∧
    Honoured (copyPage "new".toList .append) src notesRunbook illustrated 3 w' := by
  have hsome : (Table.get Document.id illustrated.db.documents 1).isSome = true := by
    decide +kernel
  obtain ⟨src, hsrc⟩ := Option.isSome_iff_exists.mp hsome
  have houtcome : outcome (copyDocument plainEnv (copyPage "new".toList .append)) illustrated =
      .ok 3 := by
    decide +kernel
  obtain ⟨w', hrun⟩ := exists_of_outcome houtcome
  have hstored : Stored illustrated := by
    refine ⟨?_, by decide +kernel, by decide +kernel⟩
    change (illustrated.db.images.map DocumentImage.id).Nodup
    decide +kernel
  have hnew : findDocument illustrated.db notesRunbook.id "new".toList = none := by decide +kernel
  refine ⟨src, w', hsrc, hrun, (copies_honoured_iff plainEnv oneRunbook illustratedOps
    site_oneRunbook hstored (copyPage "new".toList .append) src notesRunbook 3 w' hsrc
    (by decide +kernel) hrun).mpr fun doc hdoc => ?_⟩
  have hdoc' := hnew.symm.trans hdoc
  cases hdoc'

end CwStation.Documents
