import CwStation.Library.Effects
import CwStation.Model.Documents

/-! # The histories of documents

What a state of the tables and files owes to every document, and what a change of it may do:
heads move forward, other versions stay as they are until they are deleted. -/

namespace CwStation.Documents

/-- A version is the head of its document, in the tables and in its file. -/
structure Synced (env : Env) (w : World) (doc : Document) (v : DocumentVersion) : Prop where
  mem : v ∈ w.db.versions
  points : doc.currentVersion = some v.id
  own : v.document = doc.id
  number : doc.version = v.version
  newest : ∀ u ∈ w.db.versions, u.document = doc.id → u.version ≤ v.version
  text : doc.contentText = v.contentText
  stripped : v.contentText = stripFrontmatter env.unicode (w.fileText v)

/-- A document has no versions, or a head. -/
def Headed (env : Env) (w : World) (doc : Document) : Prop :=
  (doc.currentVersion = none ∧ ∀ v ∈ w.db.versions, v.document ≠ doc.id) ∨
    ∃ v, Synced env w doc v

structure Sound (env : Env) (w : World) : Prop where
  documents : Table.Unique Document.id w.db.documents
  versions : Table.Unique DocumentVersion.id w.db.versions
  numbers : Table.Unique (fun v => (v.document, v.version)) w.db.versions
  files : Table.Unique DocumentVersion.file w.db.versions
  freshDocument : ∀ doc ∈ w.db.documents, doc.id < w.db.nextDocument
  freshVersion : ∀ v ∈ w.db.versions, v.id < w.db.nextVersion
  owner : ∀ v ∈ w.db.versions, v.document < w.db.nextDocument
  stored : ∀ v ∈ w.db.versions, v.file < w.disk.length
  headed : ∀ doc ∈ w.db.documents, Headed env w doc

/-- Some document has this version for its head. -/
def IsHead (w : World) (pk : ℕ) : Prop := ∃ doc ∈ w.db.documents, doc.currentVersion = some pk

/-- A version that is no head stays as it is, text and row, until it is deleted; and keys
are not used again. -/
structure Kept (w w' : World) : Prop where
  same : ∀ v ∈ w.db.versions, ¬IsHead w v.id → ∀ v' ∈ w'.db.versions, v'.id = v.id →
    v' = v ∧ w'.fileText v = w.fileText v ∧ ¬IsHead w' v.id
  old : ∀ v' ∈ w'.db.versions, v'.id < w.db.nextVersion → ∃ v ∈ w.db.versions, v.id = v'.id
  next : w.db.nextVersion ≤ w'.db.nextVersion

/-- A change that keeps the histories sound and the past as it is. -/
def Evolves (env : Env) (w w' : World) : Prop := Sound env w → Sound env w' ∧ Kept w w'

/-- A change that writes no file that was there. -/
def Grows (env : Env) (w w' : World) : Prop := Evolves env w w' ∧ w.disk <+: w'.disk

/-! ### Composition -/

/-- What a change has to show: each version it leaves is as it was, or is a head that was
rewritten, or is new; and no old version becomes a head. -/
theorem Kept.of {env : Env} {w w' : World} (hs : Sound env w)
    (hrows : ∀ v' ∈ w'.db.versions,
      (v' ∈ w.db.versions ∧ (¬IsHead w v'.id → w'.fileText v' = w.fileText v')) ∨
        (∃ v ∈ w.db.versions, v.id = v'.id ∧ IsHead w v.id) ∨ w.db.nextVersion ≤ v'.id)
    (hheads : ∀ v ∈ w.db.versions, IsHead w' v.id → IsHead w v.id)
    (hnext : w.db.nextVersion ≤ w'.db.nextVersion) : Kept w w' where
  same := by
    intro v hv hno v' hv' hid
    rcases hrows v' hv' with ⟨hmem, htext⟩ | ⟨u, hu, huid, hhead⟩ | hnew
    · have heq : v' = v := hs.versions.eq_of_key hmem hv hid
      subst heq
      exact ⟨rfl, htext hno, fun h => hno (hheads v' hv h)⟩
    · exact absurd (hid ▸ huid ▸ hhead) hno
    · have hold := hs.freshVersion v hv
      omega
  old := by
    intro v' hv' hlt
    rcases hrows v' hv' with ⟨hmem, -⟩ | ⟨v, hv, hid, -⟩ | hnew
    · exact ⟨v', hmem, rfl⟩
    · exact ⟨v, hv, hid⟩
    · omega
  next := hnext

theorem Kept.trans {w w' w'' : World} (hfresh : ∀ v ∈ w.db.versions, v.id < w.db.nextVersion)
    (h : Kept w w') (h' : Kept w' w'') : Kept w w'' where
  same := by
    intro v hv hno v'' hv'' hid
    have hlt : v''.id < w'.db.nextVersion := by
      have hnext := h.next
      have hv := hfresh v hv
      omega
    obtain ⟨v', hv', hid'⟩ := h'.old v'' hv'' hlt
    obtain ⟨rfl, htext, hno'⟩ := h.same v hv hno v' hv' (hid'.trans hid)
    obtain ⟨hrow, htext', hno''⟩ := h'.same v' hv' hno' v'' hv'' hid
    exact ⟨hrow, htext'.trans htext, hno''⟩
  old := by
    intro v'' hv'' hlt
    obtain ⟨v', hv', hid'⟩ := h'.old v'' hv'' (lt_of_lt_of_le hlt h.next)
    obtain ⟨v, hv, hid⟩ := h.old v' hv' (hid' ▸ hlt)
    exact ⟨v, hv, hid.trans hid'⟩
  next := h.next.trans h'.next

theorem Evolves.refl (env : Env) (w : World) : Evolves env w w := fun hs =>
  ⟨hs, Kept.of hs (fun _ hv => .inl ⟨hv, fun _ => rfl⟩) (fun _ _ h => h) le_rfl⟩

theorem Evolves.trans {env : Env} {w w' w'' : World} (h : Evolves env w w')
    (h' : Evolves env w' w'') : Evolves env w w'' := by
  intro hs
  obtain ⟨hs', hkept⟩ := h hs
  obtain ⟨hs'', hkept'⟩ := h' hs'
  exact ⟨hs'', hkept.trans hs.freshVersion hkept'⟩

theorem Grows.refl (env : Env) (w : World) : Grows env w w := ⟨Evolves.refl env w, List.prefix_rfl⟩

theorem Grows.trans {env : Env} {w w' w'' : World} (h : Grows env w w') (h' : Grows env w' w'') :
    Grows env w w'' := ⟨h.1.trans h'.1, h.2.trans h'.2⟩

/-! ### Changes that leave the histories alone -/

/-- What the histories see of a document. -/
def core (doc : Document) : ℕ × Option ℕ × ℕ × Str :=
  (doc.id, doc.currentVersion, doc.version, doc.contentText)

theorem fileText_of_grown {w w' : World} {v : DocumentVersion} (h : w.disk <+: w'.disk)
    (hv : v.file < w.disk.length) : w'.fileText v = w.fileText v := by
  obtain ⟨rest, hrest⟩ := h
  simp only [World.fileText, ← hrest, List.getD_eq_getElem?_getD,
    List.getElem?_append_left hv]

theorem Headed.of_core {env : Env} {w w' : World} {doc doc' : Document}
    (hs : Sound env w) (hversions : w'.db.versions = w.db.versions) (hdisk : w.disk <+: w'.disk)
    (hcore : core doc' = core doc) (h : Headed env w doc) : Headed env w' doc' := by
  simp only [core, Prod.mk.injEq] at hcore
  obtain ⟨hid, hcurrent, hversion, htext⟩ := hcore
  rcases h with ⟨hnone, hempty⟩ | ⟨v, hv⟩
  · refine .inl ⟨hcurrent.trans hnone, ?_⟩
    rw [hversions, hid]
    exact hempty
  · refine .inr ⟨v, ?_⟩
    exact
      { mem := hversions ▸ hv.mem
        points := hcurrent.trans hv.points
        own := hv.own.trans hid.symm
        number := hversion.trans hv.number
        newest := by
          rw [hversions, hid]
          exact hv.newest
        text := htext.trans hv.text
        stripped := by
          rw [fileText_of_grown hdisk (hs.stored v hv.mem)]
          exact hv.stripped }

/-- A change of other tables, of other fields of documents, of the clock, or by new files. -/
theorem grows_of_core {env : Env} {w w' : World}
    (hversions : w'.db.versions = w.db.versions)
    (hnext : w'.db.nextVersion = w.db.nextVersion)
    (hdocument : w.db.nextDocument ≤ w'.db.nextDocument)
    (hcore : w'.db.documents.map core = w.db.documents.map core)
    (hdisk : w.disk <+: w'.disk) : Grows env w w' := by
  have hfrom : ∀ doc' ∈ w'.db.documents, ∃ doc ∈ w.db.documents, core doc = core doc' := by
    intro doc' hdoc'
    have hmem := List.mem_map_of_mem (f := core) hdoc'
    rw [hcore] at hmem
    exact List.mem_map.mp hmem
  have hids : w'.db.documents.map Document.id = w.db.documents.map Document.id := by
    have hfst := congrArg (List.map Prod.fst) hcore
    rw [List.map_map, List.map_map] at hfst
    exact hfst
  refine ⟨fun hs => ⟨?_, ?_⟩, hdisk⟩
  · exact
      { documents := by
          rw [Table.Unique, hids]
          exact hs.documents
        versions := hversions ▸ hs.versions
        numbers := hversions ▸ hs.numbers
        files := hversions ▸ hs.files
        freshDocument := by
          intro doc' hdoc'
          obtain ⟨doc, hdoc, heq⟩ := hfrom doc' hdoc'
          have hid : doc.id = doc'.id := congrArg Prod.fst heq
          have hlt := hs.freshDocument doc hdoc
          omega
        freshVersion := by
          rw [hversions, hnext]
          exact hs.freshVersion
        owner := by
          rw [hversions]
          exact fun v hv => lt_of_lt_of_le (hs.owner v hv) hdocument
        stored := by
          rw [hversions]
          exact fun v hv => lt_of_lt_of_le (hs.stored v hv) hdisk.length_le
        headed := by
          intro doc' hdoc'
          obtain ⟨doc, hdoc, heq⟩ := hfrom doc' hdoc'
          exact (hs.headed doc hdoc).of_core hs hversions hdisk heq.symm }
  · apply Kept.of hs
    · rw [hversions]
      exact fun v hv => .inl ⟨hv, fun _ => fileText_of_grown hdisk (hs.stored v hv)⟩
    · rintro v - ⟨doc', hdoc', hcurrent⟩
      obtain ⟨doc, hdoc, heq⟩ := hfrom doc' hdoc'
      have hpointer : doc.currentVersion = doc'.currentVersion :=
        congrArg (fun c => c.2.1) heq
      exact ⟨doc, hdoc, hpointer.trans hcurrent⟩
    · exact hnext.ge

/-- A change of other tables is rolled back to a state the past may stand in. -/
theorem grows_rollback {env : Env} {w w' : World} (h : w.disk <+: w'.disk) :
    Grows env w { w' with db := w.db } :=
  grows_of_core rfl rfl le_rfl rfl h

/-! ### A new document -/

/-- A row inserted under the next key, without a version. -/
theorem grows_insertDocument {env : Env} {w w' : World} {doc : Document}
    (hid : doc.id = w.db.nextDocument) (hnone : doc.currentVersion = none)
    (hdocuments : w'.db.documents = w.db.documents ++ [doc])
    (hversions : w'.db.versions = w.db.versions)
    (hnext : w'.db.nextVersion = w.db.nextVersion)
    (hdocument : w'.db.nextDocument = w.db.nextDocument + 1) (hdisk : w'.disk = w.disk) :
    Grows env w w' := by
  have hprefix : w.disk <+: w'.disk := hdisk ▸ List.prefix_rfl
  refine ⟨fun hs => ⟨?_, ?_⟩, hprefix⟩
  · exact
      { documents := by
          rw [hdocuments]
          apply hs.documents.append
          rw [Table.get_eq_none_iff, hid]
          exact fun d hd => (hs.freshDocument d hd).ne
        versions := hversions ▸ hs.versions
        numbers := hversions ▸ hs.numbers
        files := hversions ▸ hs.files
        freshDocument := by
          intro d hd
          rw [hdocuments] at hd
          rw [hdocument]
          rcases List.mem_append.mp hd with hd | hd
          · exact Nat.lt_succ_of_lt (hs.freshDocument d hd)
          · rw [List.mem_singleton.mp hd, hid]
            exact Nat.lt_succ_self _
        freshVersion := by
          rw [hversions, hnext]
          exact hs.freshVersion
        owner := by
          rw [hversions, hdocument]
          exact fun v hv => Nat.lt_succ_of_lt (hs.owner v hv)
        stored := by
          rw [hversions, hdisk]
          exact hs.stored
        headed := by
          intro d hd
          rw [hdocuments] at hd
          rcases List.mem_append.mp hd with hd | hd
          · exact (hs.headed d hd).of_core hs hversions hprefix rfl
          · rw [List.mem_singleton.mp hd]
            refine .inl ⟨hnone, ?_⟩
            rw [hversions, hid]
            exact fun v hv => (hs.owner v hv).ne }
  · apply Kept.of hs
    · rw [hversions]
      exact fun v hv => .inl ⟨hv, fun _ => fileText_of_grown hprefix (hs.stored v hv)⟩
    · rintro v - ⟨d, hd, hcurrent⟩
      rw [hdocuments] at hd
      rcases List.mem_append.mp hd with hd | hd
      · exact ⟨d, hd, hcurrent⟩
      · rw [List.mem_singleton.mp hd, hnone] at hcurrent
        cases hcurrent
    · exact hnext.ge

/-! ### A new head -/

section NewVersion

variable {env : Env} {w : World} {doc : Document}

/-- The row of the new head. -/
def newRow (env : Env) (w : World) (doc : Document) (file description : Str) (origin : Origin) :
    DocumentVersion where
  id := w.db.nextVersion
  document := doc.id
  version := nextVersionNumber w.db doc
  file := w.disk.length
  fileType := "md".toList
  contentText := stripFrontmatter env.unicode file
  title := doc.title
  description := description
  source := origin.source
  via := origin.via
  createdBy := origin.user
  createdAt := w.now

/-- The document with its new head. -/
def withHead (row : DocumentVersion) (now : ℤ) (doc : Document) : Document :=
  { doc with
    currentVersion := some row.id
    version := row.version
    fileType := row.fileType
    contentText := row.contentText
    updatedAt := now }

/-- What `create_new_version` leaves. -/
def World.withVersion (env : Env) (w : World) (doc : Document) (file description : Str)
    (origin : Origin) : World where
  db :=
    { w.db with
      versions := w.db.versions ++ [newRow env w doc file description origin]
      nextVersion := w.db.nextVersion + 1
      documents := Table.alter Document.id doc.id
        (withHead (newRow env w doc file description origin) w.now) w.db.documents }
  disk := w.disk ++ [file]
  now := w.now + 1

theorem headVersion_of_synced (hs : Sound env w) {v : DocumentVersion}
    (h : Synced env w doc v) : headVersion w.db doc = some v := by
  rw [headVersion, h.points, Option.bind_some, Table.get_of_mem hs.versions h.mem]

theorem headVersion_of_none (h : doc.currentVersion = none) : headVersion w.db doc = none := by
  rw [headVersion, h, Option.bind_none]

/-- The next number is past all numbers of the document. -/
theorem lt_nextVersionNumber (hs : Sound env w) (hdoc : doc ∈ w.db.documents)
    {v : DocumentVersion} (hv : v ∈ w.db.versions) (hown : v.document = doc.id) :
    v.version < nextVersionNumber w.db doc := by
  rcases hs.headed doc hdoc with ⟨-, hempty⟩ | ⟨u, hu⟩
  · exact absurd hown (hempty v hv)
  · have hle := hu.newest v hv hown
    rw [nextVersionNumber, headVersion_of_synced hs hu]
    exact Nat.lt_succ_of_le hle

variable {file description : Str} {origin : Origin}

theorem withVersion_versions :
    (w.withVersion env doc file description origin).db.versions =
      w.db.versions ++ [newRow env w doc file description origin] := rfl

theorem withVersion_documents :
    (w.withVersion env doc file description origin).db.documents =
      Table.alter Document.id doc.id (withHead (newRow env w doc file description origin) w.now)
        w.db.documents := rfl

theorem withVersion_grown :
    w.disk <+: (w.withVersion env doc file description origin).disk := List.prefix_append _ _

theorem fileText_newRow :
    (w.withVersion env doc file description origin).fileText
      (newRow env w doc file description origin) = file := by
  simp [World.fileText, World.withVersion, newRow]

theorem synced_newRow (hs : Sound env w) (hdoc : doc ∈ w.db.documents) :
    Synced env (w.withVersion env doc file description origin)
      (withHead (newRow env w doc file description origin) w.now doc)
      (newRow env w doc file description origin) where
  mem := by
    rw [withVersion_versions]
    exact List.mem_append_right _ (List.mem_singleton_self _)
  points := rfl
  own := rfl
  number := rfl
  newest := by
    intro u hu hown
    rw [withVersion_versions] at hu
    rcases List.mem_append.mp hu with hu | hu
    · exact (lt_nextVersionNumber hs hdoc hu hown).le
    · rw [List.mem_singleton.mp hu]
  text := rfl
  stripped := by
    rw [fileText_newRow]
    rfl

/-- A document keeps its head when a version of another one is added. -/
theorem Headed.withVersion (hs : Sound env w) {d : Document} (hne : d.id ≠ doc.id)
    (h : Headed env w d) : Headed env (w.withVersion env doc file description origin) d := by
  have hmem : ∀ v ∈ (w.withVersion env doc file description origin).db.versions,
      v.document = d.id → v ∈ w.db.versions := by
    intro v hv hown
    rw [withVersion_versions] at hv
    rcases List.mem_append.mp hv with hv | hv
    · exact hv
    · rw [List.mem_singleton.mp hv] at hown
      exact absurd hown.symm hne
  rcases h with ⟨hnone, hempty⟩ | ⟨v, hv⟩
  · exact .inl ⟨hnone, fun v hv hown => hempty v (hmem v hv hown) hown⟩
  · refine .inr ⟨v, ?_⟩
    exact
      { hv with
        mem := List.mem_append_left _ hv.mem
        newest := fun u hu hown => hv.newest u (hmem u hu hown) hown
        stripped := by
          rw [fileText_of_grown withVersion_grown (hs.stored v hv.mem)]
          exact hv.stripped }

theorem Sound.withVersion (hs : Sound env w) (hdoc : doc ∈ w.db.documents) :
    Sound env (w.withVersion env doc file description origin) where
  documents := hs.documents.alter fun _ => rfl
  versions := by
    rw [withVersion_versions]
    apply hs.versions.append
    rw [Table.get_eq_none_iff]
    exact fun v hv => (hs.freshVersion v hv).ne
  numbers := by
    rw [withVersion_versions]
    apply hs.numbers.append
    rw [Table.get_eq_none_iff]
    intro v hv heq
    obtain ⟨hown, hnumber⟩ := Prod.mk.inj heq
    exact (lt_nextVersionNumber hs hdoc hv hown).ne hnumber
  files := by
    rw [withVersion_versions]
    apply hs.files.append
    rw [Table.get_eq_none_iff]
    exact fun v hv => (hs.stored v hv).ne
  freshDocument := by
    intro d hd
    rw [withVersion_documents] at hd
    obtain ⟨d', hd', rfl⟩ := Table.mem_alter hd
    have hlt := hs.freshDocument d' hd'
    by_cases hpk : d'.id = doc.id
    · rw [if_pos hpk]
      exact hlt
    · rw [if_neg hpk]
      exact hlt
  freshVersion := by
    intro v hv
    rw [withVersion_versions] at hv
    rcases List.mem_append.mp hv with hv | hv
    · exact Nat.lt_succ_of_lt (hs.freshVersion v hv)
    · rw [List.mem_singleton.mp hv]
      exact Nat.lt_succ_self _
  owner := by
    intro v hv
    rw [withVersion_versions] at hv
    rcases List.mem_append.mp hv with hv | hv
    · exact hs.owner v hv
    · rw [List.mem_singleton.mp hv]
      exact hs.freshDocument doc hdoc
  stored := by
    intro v hv
    rw [withVersion_versions] at hv
    have hlength : (w.withVersion env doc file description origin).disk.length =
        w.disk.length + 1 := List.length_append
    rw [hlength]
    rcases List.mem_append.mp hv with hv | hv
    · exact Nat.lt_succ_of_lt (hs.stored v hv)
    · rw [List.mem_singleton.mp hv]
      exact Nat.lt_succ_self _
  headed := by
    intro d hd
    rw [withVersion_documents] at hd
    obtain ⟨d', hd', rfl⟩ := Table.mem_alter hd
    by_cases hpk : d'.id = doc.id
    · have heq : d' = doc := hs.documents.eq_of_key hd' hdoc hpk
      subst heq
      rw [if_pos rfl]
      exact .inr ⟨_, synced_newRow hs hdoc⟩
    · rw [if_neg hpk]
      exact (hs.headed d' hd').withVersion hs hpk

theorem grows_withVersion (hdoc : doc ∈ w.db.documents) :
    Grows env w (w.withVersion env doc file description origin) := by
  refine ⟨fun hs => ⟨hs.withVersion hdoc, ?_⟩, withVersion_grown⟩
  apply Kept.of hs
  · intro v hv
    rw [withVersion_versions] at hv
    rcases List.mem_append.mp hv with hv | hv
    · exact .inl ⟨hv, fun _ => fileText_of_grown withVersion_grown (hs.stored v hv)⟩
    · rw [List.mem_singleton.mp hv]
      exact .inr (.inr le_rfl)
  · rintro v hv ⟨d, hd, hcurrent⟩
    rw [withVersion_documents] at hd
    obtain ⟨d', hd', rfl⟩ := Table.mem_alter hd
    by_cases hpk : d'.id = doc.id
    · rw [if_pos hpk] at hcurrent
      have hlt := hs.freshVersion v hv
      have hid : w.db.nextVersion = v.id := Option.some.inj hcurrent
      omega
    · rw [if_neg hpk] at hcurrent
      exact ⟨d', hd', hcurrent⟩
  · exact Nat.le_succ _

end NewVersion

/-! ### A head rewritten in place -/

section Overwrite

variable {env : Env} {w : World} {doc : Document} {v : DocumentVersion} {text : Str}
  {origin : Origin}

/-- The row of a head that got another text. -/
def rewritten (plain : Str) (origin : Origin) (v : DocumentVersion) : DocumentVersion :=
  { v with
    contentText := plain
    source := if origin.source = [] then v.source else origin.source
    via := origin.via }

def withText (plain : Str) (now : ℤ) (doc : Document) : Document :=
  { doc with contentText := plain, updatedAt := now }

/-- What `_overwrite_head` leaves. -/
def World.overwritten (env : Env) (w : World) (pk : ℕ) (v : DocumentVersion) (text : Str)
    (origin : Origin) : World where
  db :=
    { w.db with
      versions := Table.alter DocumentVersion.id v.id
        (rewritten (stripFrontmatter env.unicode text) origin) w.db.versions
      documents := Table.alter Document.id pk
        (withText (stripFrontmatter env.unicode text) w.now) w.db.documents }
  disk := w.disk.set v.file text
  now := w.now + 1

theorem mem_versions_overwritten {u' : DocumentVersion}
    (h : u' ∈ (w.overwritten env doc.id v text origin).db.versions) :
    ∃ u ∈ w.db.versions, u'.id = u.id ∧ u'.document = u.document ∧ u'.version = u.version ∧
      u'.file = u.file ∧ (u.id ≠ v.id → u' = u) := by
  obtain ⟨u, hu, rfl⟩ := Table.mem_alter h
  by_cases hid : u.id = v.id
  · rw [if_pos hid]
    exact ⟨u, hu, rfl, rfl, rfl, rfl, fun hne => absurd hid hne⟩
  · rw [if_neg hid]
    exact ⟨u, hu, rfl, rfl, rfl, rfl, fun _ => rfl⟩

theorem mem_documents_overwritten {d' : Document}
    (h : d' ∈ (w.overwritten env doc.id v text origin).db.documents) :
    ∃ d ∈ w.db.documents, d'.id = d.id ∧ d'.currentVersion = d.currentVersion ∧
      (d.id ≠ doc.id → d' = d) ∧
      (d.id = doc.id → d' = withText (stripFrontmatter env.unicode text) w.now d) := by
  obtain ⟨d, hd, rfl⟩ := Table.mem_alter h
  by_cases hid : d.id = doc.id
  · rw [if_pos hid]
    exact ⟨d, hd, rfl, rfl, fun hne => absurd hid hne, fun _ => rfl⟩
  · rw [if_neg hid]
    exact ⟨d, hd, rfl, rfl, fun _ => rfl, fun heq => absurd heq hid⟩

/-- Files are not shared, so no other version's text changes. -/
theorem fileText_overwritten (hs : Sound env w) (hv : v ∈ w.db.versions) {u : DocumentVersion}
    (hu : u ∈ w.db.versions) (hne : u.id ≠ v.id) :
    (w.overwritten env doc.id v text origin).fileText u = w.fileText u := by
  have hfile : v.file ≠ u.file := by
    intro heq
    exact hne (congrArg DocumentVersion.id (hs.files.eq_of_key hu hv heq.symm))
  simp [World.fileText, World.overwritten, List.getD_eq_getElem?_getD,
    List.getElem?_set_ne hfile]

theorem fileText_head_overwritten (hs : Sound env w) (hv : v ∈ w.db.versions) {u : DocumentVersion}
    (hfile : u.file = v.file) : (w.overwritten env doc.id v text origin).fileText u = text := by
  have hlt := hs.stored v hv
  simp [World.fileText, World.overwritten, hfile, hlt]

theorem synced_overwritten (hs : Sound env w) (h : Synced env w doc v) :
    Synced env (w.overwritten env doc.id v text origin)
      (withText (stripFrontmatter env.unicode text) w.now doc)
      (rewritten (stripFrontmatter env.unicode text) origin v) where
  mem := by
    have hmem : (if v.id = v.id then rewritten (stripFrontmatter env.unicode text) origin v else v) ∈
        (w.overwritten env doc.id v text origin).db.versions :=
      List.mem_map_of_mem (f := fun u => if u.id = v.id then
        rewritten (stripFrontmatter env.unicode text) origin u else u) h.mem
    rwa [if_pos rfl] at hmem
  points := h.points
  own := h.own
  number := h.number
  newest := by
    intro u' hu' hown
    obtain ⟨u, hu, -, hdocument, hversion, -⟩ := mem_versions_overwritten hu'
    rw [hversion]
    exact h.newest u hu (hdocument ▸ hown)
  text := rfl
  stripped := by
    have hfile : (rewritten (stripFrontmatter env.unicode text) origin v).file = v.file := rfl
    rw [fileText_head_overwritten hs h.mem hfile]
    rfl

theorem Headed.overwritten (hs : Sound env w) (h : Synced env w doc v) {d : Document}
    (hne : d.id ≠ doc.id) (hd : Headed env w d) :
    Headed env (w.overwritten env doc.id v text origin) d := by
  rcases hd with ⟨hnone, hempty⟩ | ⟨u, hu⟩
  · refine .inl ⟨hnone, ?_⟩
    intro u' hu' hown
    obtain ⟨u, hu, -, hdocument, -⟩ := mem_versions_overwritten hu'
    exact hempty u hu (hdocument ▸ hown)
  · have huv : u.id ≠ v.id := by
      intro heq
      have huv : v = u := hs.versions.eq_of_key h.mem hu.mem heq.symm
      exact hne (hu.own.symm.trans (huv ▸ h.own))
    have hmem : (if u.id = v.id then rewritten (stripFrontmatter env.unicode text) origin u else u) ∈
        (w.overwritten env doc.id v text origin).db.versions :=
      List.mem_map_of_mem (f := fun u => if u.id = v.id then
        rewritten (stripFrontmatter env.unicode text) origin u else u) hu.mem
    rw [if_neg huv] at hmem
    refine .inr ⟨u, ?_⟩
    exact
      { hu with
        mem := hmem
        newest := by
          intro u' hu' hown
          obtain ⟨u₀, hu₀, -, hdocument, hversion, -⟩ := mem_versions_overwritten hu'
          rw [hversion]
          exact hu.newest u₀ hu₀ (hdocument ▸ hown)
        stripped := by
          rw [fileText_overwritten hs h.mem hu.mem huv]
          exact hu.stripped }

theorem Sound.overwritten (hs : Sound env w) (hdoc : doc ∈ w.db.documents)
    (h : Synced env w doc v) : Sound env (w.overwritten env doc.id v text origin) where
  documents := hs.documents.alter fun _ => rfl
  versions := hs.versions.alter fun _ => rfl
  numbers := hs.numbers.map fun u => by
    by_cases hid : u.id = v.id
    · rw [if_pos hid]
      rfl
    · rw [if_neg hid]
  files := hs.files.map fun u => by
    by_cases hid : u.id = v.id
    · rw [if_pos hid]
      rfl
    · rw [if_neg hid]
  freshDocument := by
    intro d' hd'
    obtain ⟨d, hd, hid, -⟩ := mem_documents_overwritten hd'
    rw [hid]
    exact hs.freshDocument d hd
  freshVersion := by
    intro u' hu'
    obtain ⟨u, hu, hid, -⟩ := mem_versions_overwritten hu'
    rw [hid]
    exact hs.freshVersion u hu
  owner := by
    intro u' hu'
    obtain ⟨u, hu, -, hdocument, -⟩ := mem_versions_overwritten hu'
    rw [hdocument]
    exact hs.owner u hu
  stored := by
    intro u' hu'
    obtain ⟨u, hu, -, -, -, hfile, -⟩ := mem_versions_overwritten hu'
    have hlength : (w.overwritten env doc.id v text origin).disk.length = w.disk.length :=
      List.length_set
    rw [hfile, hlength]
    exact hs.stored u hu
  headed := by
    intro d' hd'
    obtain ⟨d, hd, -, -, hother, hsame⟩ := mem_documents_overwritten hd'
    by_cases hid : d.id = doc.id
    · have heq : d = doc := hs.documents.eq_of_key hd hdoc hid
      rw [hsame hid, heq]
      exact .inr ⟨_, synced_overwritten hs h⟩
    · rw [hother hid]
      exact (hs.headed d hd).overwritten hs h hid

theorem evolves_overwritten (hdoc : doc ∈ w.db.documents) (h : Synced env w doc v) :
    Evolves env w (w.overwritten env doc.id v text origin) := by
  intro hs
  refine ⟨hs.overwritten hdoc h, ?_⟩
  apply Kept.of hs
  · intro u' hu'
    obtain ⟨u, hu, hid, -, -, -, hsame⟩ := mem_versions_overwritten hu'
    by_cases hv : u.id = v.id
    · exact .inr (.inl ⟨u, hu, hid.symm, doc, hdoc, hv ▸ h.points⟩)
    · rw [hsame hv]
      exact .inl ⟨hu, fun _ => fileText_overwritten hs h.mem hu hv⟩
  · rintro u - ⟨d', hd', hcurrent⟩
    obtain ⟨d, hd, -, hpointer, -⟩ := mem_documents_overwritten hd'
    exact ⟨d, hd, hpointer ▸ hcurrent⟩
  · exact le_rfl

end Overwrite

/-! ### Deletions -/

theorem deleteVersions_documents {w : World} {pks : List ℕ}
    (hheads : ∀ doc ∈ w.db.documents, ∀ pk ∈ pks, doc.currentVersion ≠ some pk) :
    (deleteVersions pks w.db).documents = w.db.documents := by
  rw [deleteVersions]
  nth_rewrite 2 [← List.map_id w.db.documents]
  apply List.map_congr_left
  intro doc hdoc
  have hkept : doc.currentVersion.filter (· ∉ pks) = doc.currentVersion := by
    cases hcurrent : doc.currentVersion with
    | none => rfl
    | some pk =>
      have hno : pk ∉ pks := fun hpk => hheads doc hdoc pk hpk hcurrent
      simp [hno]
  exact congrArg (fun current => { doc with currentVersion := current }) hkept

/-- Versions that are no heads deleted. -/
theorem grows_deleteVersions {env : Env} {w : World} {pks : List ℕ}
    (hheads : ∀ doc ∈ w.db.documents, ∀ pk ∈ pks, doc.currentVersion ≠ some pk) :
    Grows env w { w with db := deleteVersions pks w.db } := by
  have hdocuments := deleteVersions_documents hheads
  have hsub : (deleteVersions pks w.db).versions.Sublist w.db.versions := List.filter_sublist
  refine ⟨fun hs => ⟨?_, ?_⟩, List.prefix_rfl⟩
  · exact
      { documents := hdocuments ▸ hs.documents
        versions := hs.versions.sublist (hsub.map _)
        numbers := hs.numbers.sublist (hsub.map _)
        files := hs.files.sublist (hsub.map _)
        freshDocument := hdocuments ▸ hs.freshDocument
        freshVersion := fun v hv => hs.freshVersion v (hsub.mem hv)
        owner := fun v hv => hs.owner v (hsub.mem hv)
        stored := fun v hv => hs.stored v (hsub.mem hv)
        headed := by
          rw [hdocuments]
          intro doc hdoc
          rcases hs.headed doc hdoc with ⟨hnone, hempty⟩ | ⟨v, hv⟩
          · exact .inl ⟨hnone, fun u hu => hempty u (hsub.mem hu)⟩
          · have hkept : v.id ∉ pks := fun hpk => hheads doc hdoc v.id hpk hv.points
            refine .inr ⟨v, ?_⟩
            exact
              { hv with
                mem := List.mem_filter.mpr ⟨hv.mem, by simpa using hkept⟩
                newest := fun u hu => hv.newest u (hsub.mem hu) } }
  · apply Kept.of hs
    · exact fun v hv => .inl ⟨hsub.mem hv, fun _ => rfl⟩
    · rintro v - ⟨doc, hdoc, hcurrent⟩
      exact ⟨doc, hdocuments ▸ hdoc, hcurrent⟩
    · exact le_rfl

/-- A document deleted with all its versions. -/
theorem grows_deleteDocument (env : Env) (w : World) (pk : ℕ) :
    Grows env w { w with db := deleteDocument pk w.db } := by
  have hdocuments : (deleteDocument pk w.db).documents.Sublist w.db.documents :=
    List.filter_sublist
  have hversions : (deleteDocument pk w.db).versions.Sublist w.db.versions := List.filter_sublist
  refine ⟨fun hs => ⟨?_, ?_⟩, List.prefix_rfl⟩
  · exact
      { documents := hs.documents.sublist (hdocuments.map _)
        versions := hs.versions.sublist (hversions.map _)
        numbers := hs.numbers.sublist (hversions.map _)
        files := hs.files.sublist (hversions.map _)
        freshDocument := fun doc hdoc => hs.freshDocument doc (hdocuments.mem hdoc)
        freshVersion := fun v hv => hs.freshVersion v (hversions.mem hv)
        owner := fun v hv => hs.owner v (hversions.mem hv)
        stored := fun v hv => hs.stored v (hversions.mem hv)
        headed := by
          intro doc hdoc
          obtain ⟨hmem, hother⟩ := List.mem_filter.mp hdoc
          rcases hs.headed doc hmem with ⟨hnone, hempty⟩ | ⟨v, hv⟩
          · exact .inl ⟨hnone, fun u hu => hempty u (hversions.mem hu)⟩
          · have hkept : v.document ≠ pk := hv.own ▸ of_decide_eq_true hother
            refine .inr ⟨v, ?_⟩
            exact
              { hv with
                mem := List.mem_filter.mpr ⟨hv.mem, decide_eq_true hkept⟩
                newest := fun u hu => hv.newest u (hversions.mem hu) } }
  · apply Kept.of hs
    · exact fun v hv => .inl ⟨hversions.mem hv, fun _ => rfl⟩
    · rintro v - ⟨doc, hdoc, hcurrent⟩
      exact ⟨doc, hdocuments.mem hdoc, hcurrent⟩
    · exact le_rfl

end CwStation.Documents
