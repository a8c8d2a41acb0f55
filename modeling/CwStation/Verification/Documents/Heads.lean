import CwStation.Verification.Documents.Runs

/-! # Documents that can be written

A write in place needs a head. Every operation leaves a head behind the documents it makes,
but for an import of an empty text and a create whose body cannot be encoded. -/

namespace CwStation.Documents

open Effects

variable {env : Env} {α β : Type}

/-- Every document with a key has its head, under its number, save perhaps some that wait for
their first. -/
structure Heads (waiting : ℕ → Prop) (db : Db) : Prop where
  documents : Table.Unique Document.id db.documents
  versions : Table.Unique DocumentVersion.id db.versions
  freshDocument : ∀ doc ∈ db.documents, doc.id < db.nextDocument
  freshVersion : ∀ v ∈ db.versions, v.id < db.nextVersion
  owner : ∀ v ∈ db.versions, v.document < db.nextDocument
  heads : ∀ doc ∈ db.documents, doc.key ≠ none →
    (∃ v ∈ db.versions, doc.currentVersion = some v.id ∧ v.document = doc.id ∧
        v.version = doc.version) ∨
      (waiting doc.id ∧ doc.currentVersion = none ∧ doc.version = 1)

/-- A document stands under a key. -/
def Held (db : Db) (rb : ℕ) (key : Str) : Prop :=
  ∃ doc ∈ db.documents, doc.runbook = some rb ∧ doc.key = some key

theorem held_iff (db : Db) (rb : ℕ) (key : Str) :
    Held db rb key ↔ (findDocument db rb key).isSome = true := by
  simp [Held, findDocument, List.find?_isSome]

/-- A step that takes no head and no key away. -/
structure Steady (w w' : World) : Prop where
  heads : ∀ waiting, Heads waiting w.db → Heads waiting w'.db
  held : ∀ rb key, Held w.db rb key → Held w'.db rb key

theorem Steady.refl (w : World) : Steady w w := ⟨fun _ h => h, fun _ _ h => h⟩

theorem Steady.trans {w w' w'' : World} (h : Steady w w') (h' : Steady w' w'') : Steady w w'' :=
  ⟨fun waiting hw => h'.heads waiting (h.heads waiting hw),
    fun rb key hw => h'.held rb key (h.held rb key hw)⟩

theorem Steady.of_db {w w' : World} (h : w'.db = w.db) : Steady w w' :=
  ⟨fun _ hw => h ▸ hw, fun _ _ hw => h ▸ hw⟩

/-! ### Steps that keep the faces -/

/-- What heads and keys depend on in a document, and in a version. -/
def place (doc : Document) : ℕ × Option ℕ × ℕ × Option ℕ × Option Str :=
  (doc.id, doc.currentVersion, doc.version, doc.runbook, doc.key)

def belongs (v : DocumentVersion) : ℕ × ℕ × ℕ := (v.id, v.document, v.version)

theorem steady_of_places {w w' : World}
    (hversions : w'.db.versions.map belongs = w.db.versions.map belongs)
    (hdocuments : w'.db.documents.map place = w.db.documents.map place)
    (hversion : w'.db.nextVersion = w.db.nextVersion)
    (hdocument : w'.db.nextDocument = w.db.nextDocument) : Steady w w' := by
  have hdoc : ∀ doc' ∈ w'.db.documents, ∃ doc ∈ w.db.documents, place doc = place doc' := by
    intro doc' hmem
    have hplace := List.mem_map_of_mem (f := place) hmem
    rw [hdocuments] at hplace
    exact List.mem_map.mp hplace
  have hrow : ∀ v' ∈ w'.db.versions, ∃ v ∈ w.db.versions, belongs v = belongs v' := by
    intro v' hmem
    have hbelongs := List.mem_map_of_mem (f := belongs) hmem
    rw [hversions] at hbelongs
    exact List.mem_map.mp hbelongs
  refine ⟨fun waiting h => ?_, fun rb key ⟨doc, hmem, hrb, hkey⟩ => ?_⟩
  · have hids : w'.db.documents.map Document.id = w.db.documents.map Document.id := by
      have hfst := congrArg (List.map Prod.fst) hdocuments
      rw [List.map_map, List.map_map] at hfst
      exact hfst
    have hkeys : w'.db.versions.map DocumentVersion.id = w.db.versions.map DocumentVersion.id := by
      have hfst := congrArg (List.map Prod.fst) hversions
      rw [List.map_map, List.map_map] at hfst
      exact hfst
    exact
      { documents := by
          rw [Table.Unique, hids]
          exact h.documents
        versions := by
          rw [Table.Unique, hkeys]
          exact h.versions
        freshDocument := by
          intro doc' hmem
          obtain ⟨doc, hold, heq⟩ := hdoc doc' hmem
          have hid : doc.id = doc'.id := congrArg Prod.fst heq
          have hlt := h.freshDocument doc hold
          omega
        freshVersion := by
          intro v' hmem
          obtain ⟨v, hold, heq⟩ := hrow v' hmem
          have hid : v.id = v'.id := congrArg Prod.fst heq
          have hlt := h.freshVersion v hold
          omega
        owner := by
          intro v' hmem
          obtain ⟨v, hold, heq⟩ := hrow v' hmem
          have hown : v.document = v'.document := congrArg (fun b => b.2.1) heq
          have hlt := h.owner v hold
          omega
        heads := by
          intro doc' hmem hkey
          obtain ⟨doc, hold, heq⟩ := hdoc doc' hmem
          simp only [place, Prod.mk.injEq] at heq
          obtain ⟨hid, hcurrent, hnumber, -, hsame⟩ := heq
          rcases h.heads doc hold (hsame ▸ hkey) with
            ⟨v, hv, hpoints, hown, hversion⟩ | ⟨hwaits, hnone, hone⟩
          · have hbelongs := List.mem_map_of_mem (f := belongs) hv
            rw [← hversions] at hbelongs
            obtain ⟨v', hv', heq'⟩ := List.mem_map.mp hbelongs
            simp only [belongs, Prod.mk.injEq] at heq'
            obtain ⟨hvid, hvown, hvnumber⟩ := heq'
            refine .inl ⟨v', hv', ?_, ?_, ?_⟩
            · rw [← hcurrent, hpoints, hvid]
            · rw [hvown, hown, hid]
            · rw [hvnumber, hversion, hnumber]
          · exact .inr ⟨hid ▸ hwaits, hcurrent ▸ hnone, hnumber ▸ hone⟩ }
  · have hplace := List.mem_map_of_mem (f := place) hmem
    rw [← hdocuments] at hplace
    obtain ⟨doc', hmem', heq⟩ := List.mem_map.mp hplace
    simp only [place, Prod.mk.injEq] at heq
    obtain ⟨-, -, -, hrb', hkey'⟩ := heq
    exact ⟨doc', hmem', hrb'.trans hrb, hkey'.trans hkey⟩

theorem Aside.steady {w w' : World} (h : Aside w w') : Steady w w' := by
  have hplaces := congrArg (List.map fun f : (ℕ × Option ℕ × ℕ × Str) × Option ℕ × Option Str =>
    (f.1.1, f.1.2.1, f.1.2.2.1, f.2.1, f.2.2)) h.faces
  rw [List.map_map, List.map_map] at hplaces
  exact steady_of_places (congrArg _ h.versions) hplaces h.nextVersion h.nextDocument

theorem steady_aside {x : Py α} (hx : Moves Aside Aside x) : Moves Steady Steady x :=
  hx.weaken (fun _ _ => Aside.steady) fun _ _ => Aside.steady

theorem steady_bind {x : Py α} {f : α → Py β} (hx : Moves Steady Steady x)
    (hf : ∀ a, Moves Steady Steady (f a)) : Moves Steady Steady (x >>= f) :=
  hx.bind hf (fun _ _ _ => Steady.trans) (fun _ _ h => h) fun _ _ _ => Steady.trans

/-- An exception takes the tables back, so a transaction is judged by what it returns. -/
theorem steady_atomic {x : Py α} (hx : Moves Steady Steady x) : Moves Steady Steady (atomic x) := by
  intro w
  have hrun := hx w
  rw [atomic]
  cases h : x w with
  | ok a w' =>
    rw [h] at hrun
    exact hrun
  | error e w' => exact Steady.of_db rfl

/-! ### Versions -/

section Versions

variable {w : World} {doc : Document} {file description : Str} {origin : Origin}

/-- A new version gives its document a head, and takes no other's. -/
theorem Heads.withVersion {waiting waiting' : ℕ → Prop} (h : Heads waiting w.db)
    (hdoc : doc ∈ w.db.documents) (hwaiting : ∀ pk, waiting pk → waiting' pk ∨ pk = doc.id) :
    Heads waiting' (w.withVersion env doc file description origin).db where
  documents := h.documents.alter fun _ => rfl
  versions := by
    rw [withVersion_versions]
    apply h.versions.append
    rw [Table.get_eq_none_iff]
    exact fun v hv => (h.freshVersion v hv).ne
  freshDocument := by
    intro d hd
    rw [withVersion_documents] at hd
    obtain ⟨d', hd', rfl⟩ := Table.mem_alter hd
    have hlt := h.freshDocument d' hd'
    by_cases hpk : d'.id = doc.id
    · rw [if_pos hpk]
      exact hlt
    · rw [if_neg hpk]
      exact hlt
  freshVersion := by
    intro v hv
    rw [withVersion_versions] at hv
    rcases List.mem_append.mp hv with hv | hv
    · exact Nat.lt_succ_of_lt (h.freshVersion v hv)
    · rw [List.mem_singleton.mp hv]
      exact Nat.lt_succ_self _
  owner := by
    intro v hv
    rw [withVersion_versions] at hv
    rcases List.mem_append.mp hv with hv | hv
    · exact h.owner v hv
    · rw [List.mem_singleton.mp hv]
      exact h.freshDocument doc hdoc
  heads := by
    intro d hd hkey
    rw [withVersion_documents] at hd
    rw [withVersion_versions]
    obtain ⟨d', hd', rfl⟩ := Table.mem_alter hd
    by_cases hpk : d'.id = doc.id
    · rw [if_pos hpk]
      exact .inl ⟨_, List.mem_append_right _ (List.mem_singleton_self _), rfl, hpk.symm, rfl⟩
    · rw [if_neg hpk] at hkey ⊢
      rcases h.heads d' hd' hkey with ⟨v, hv, hhead⟩ | ⟨hwaits, hnone⟩
      · exact .inl ⟨v, List.mem_append_left _ hv, hhead⟩
      · rcases hwaiting d'.id hwaits with hkept | heq
        · exact .inr ⟨hkept, hnone⟩
        · exact absurd heq hpk

theorem held_withVersion {rb : ℕ} {key : Str} (h : Held w.db rb key) :
    Held (w.withVersion env doc file description origin).db rb key := by
  obtain ⟨d, hd, hrb, hkey⟩ := h
  have hmem : (if d.id = doc.id then
      withHead (newRow env w doc file description origin) w.now d else d) ∈
        (w.withVersion env doc file description origin).db.documents :=
    List.mem_map_of_mem (f := fun d => if d.id = doc.id then
      withHead (newRow env w doc file description origin) w.now d else d) hd
  refine ⟨_, hmem, ?_⟩
  by_cases hpk : d.id = doc.id
  · rw [if_pos hpk]
    exact ⟨hrb, hkey⟩
  · rw [if_neg hpk]
    exact ⟨hrb, hkey⟩

theorem steady_createNewVersion {pk : ℕ} :
    Moves Steady Steady (createNewVersion env pk file description origin) := by
  intro w
  cases h : Table.get Document.id w.db.documents pk with
  | none =>
    rw [createNewVersion_none h]
    exact Steady.refl w
  | some doc =>
    rw [createNewVersion_some h]
    by_cases hdup : (w.db.versions.any fun v =>
        v.document = pk && v.version = nextVersionNumber w.db doc) = true
    · rw [if_pos hdup]
      exact Steady.of_db rfl
    · rw [if_neg hdup]
      exact ⟨fun waiting hw => hw.withVersion (Table.get_mem h) fun _ hpk => .inl hpk,
        fun _ _ => held_withVersion⟩

end Versions

/-! ### Writing -/

theorem steady_modifyDisk (f : List Str → List Str) :
    Moves Steady Steady (modify fun w : World => { w with disk := f w.disk } : Py Unit) :=
  moves_modify fun _ => Steady.of_db rfl

theorem steady_overwriteHead (pk : ℕ) (body : Text) (origin : Origin) :
    Moves Steady Steady (overwriteHead env pk body origin) := by
  apply steady_bind (steady_aside (aside_loadDocument pk))
  intro doc
  apply steady_bind (steady_aside aside_getDb)
  intro db
  cases headVersion db doc with
  | none => exact steady_aside (aside_throw _)
  | some v =>
    apply steady_bind (steady_modifyDisk fun disk => disk.set v.file [])
    intro _
    apply steady_bind (steady_aside (aside_mdFile body))
    intro text
    apply steady_bind (steady_modifyDisk fun disk => disk.set v.file text)
    intro _
    apply steady_bind (steady_aside aside_timezoneNow)
    intro updated
    refine moves_modify fun w => steady_of_places ?_ ?_ rfl rfl
    · show (w.db.versions.map _).map belongs = w.db.versions.map belongs
      rw [List.map_map]
      apply List.map_congr_left
      intro u hu
      by_cases hid : u.id = v.id
      · rw [Function.comp_apply, if_pos hid]
        rfl
      · rw [Function.comp_apply, if_neg hid]
    · show (w.db.documents.map _).map place = w.db.documents.map place
      rw [List.map_map]
      apply List.map_congr_left
      intro d hd
      by_cases hid : d.id = pk
      · rw [Function.comp_apply, if_pos hid]
        rfl
      · rw [Function.comp_apply, if_neg hid]

theorem steady_writeVersion (pk : ℕ) (body : Text) (mode : WriteMode) (description : Str)
    (origin : Origin) (bypassLock : Bool) :
    Moves Steady Steady (writeVersion env pk body mode description origin bypassLock) := by
  apply steady_atomic
  apply steady_bind (steady_aside (aside_loadDocument pk))
  intro doc
  apply steady_bind (steady_aside aside_getDb)
  intro db
  apply steady_bind (steady_aside (aside_orRaise _))
  intro _
  cases mode with
  | newVersion =>
    exact steady_bind (steady_aside (aside_mdFile body)) fun _ => steady_createNewVersion
  | overwrite => exact steady_overwriteHead pk body origin
  | append =>
    apply steady_bind (steady_aside aside_get)
    intro w
    exact steady_overwriteHead pk _ origin
  | appendVersion =>
    apply steady_bind (steady_aside aside_get)
    intro w
    exact steady_bind (steady_aside (aside_mdFile _)) fun _ => steady_createNewVersion

/-! ### New documents -/

/-- The states in which every document with a key has its head. -/
def Headful (w : World) : Prop := Heads (fun _ => False) w.db

theorem keeps_heads (waiting : ℕ → Prop) {x : Py α} (hx : Moves Steady Steady x) :
    Keeps (fun w => Heads waiting w.db) x := fun w hw => (hx.endState w).heads waiting hw

theorem keeps_of_steady {x : Py α} (hx : Moves Steady Steady x) : Keeps Headful x :=
  keeps_heads _ hx

/-- Under a transaction only the runs that return count. -/
theorem headful_atomic {P : World → Prop} {x : Py α} {w : World}
    (hx : Meets P x (fun _ => Headful) fun _ => True) (hP : P w) (hw : Headful w) :
    Headful (endState (atomic x) w) := by
  have hrun := hx w hP
  rw [endState, atomic]
  cases h : x w with
  | ok a w' =>
    rw [h] at hrun
    exact hrun
  | error e w' => exact hw

theorem keeps_atomic {x : Py α} (hx : Meets Headful x (fun _ => Headful) fun _ => True) :
    Keeps Headful (atomic x) := fun _ hw => headful_atomic hx hw hw

theorem returns_atomic {P : World → Prop} {x : Py α} {Q : α → World → Prop}
    (hx : Meets P x Q fun _ => True) : Meets P (atomic x) Q fun _ => True := by
  intro w hw
  have hrun := hx w hw
  rw [atomic]
  cases h : x w with
  | ok a w' =>
    rw [h] at hrun
    exact hrun
  | error e w' => trivial

/-- A step that takes nothing away, from a state in `P` that such steps keep. -/
theorem meets_steady {P : World → Prop} {x : Py α} (hx : Moves Steady Steady x)
    (hP : ∀ w w', Steady w w' → P w → P w') : Meets P x (fun _ => P) P := by
  intro w hw
  have hrun := hx w
  cases h : x w with
  | ok a w' =>
    rw [h] at hrun
    exact hP w w' hrun hw
  | error e w' =>
    rw [h] at hrun
    exact hP w w' hrun hw

section Inserting

variable {w : World} {row : ℕ → ℤ → Document}

/-- A row inserted without a head waits for it. -/
theorem Heads.withDocument {waiting waiting' : ℕ → Prop} {doc : Document} (h : Heads waiting w.db)
    (hid : doc.id = w.db.nextDocument) (hnone : doc.currentVersion = none)
    (hone : doc.version = 1) (hwaiting : ∀ pk, waiting pk → waiting' pk)
    (hdoc : doc.key ≠ none → waiting' doc.id) : Heads waiting' (w.withDocument doc).db where
  documents := by
    apply h.documents.append
    rw [Table.get_eq_none_iff, hid]
    exact fun d hd => (h.freshDocument d hd).ne
  versions := h.versions
  freshDocument := by
    intro d hd
    rcases List.mem_append.mp hd with hd | hd
    · exact Nat.lt_succ_of_lt (h.freshDocument d hd)
    · rw [List.mem_singleton.mp hd, hid]
      exact Nat.lt_succ_self _
  freshVersion := h.freshVersion
  owner := fun v hv => Nat.lt_succ_of_lt (h.owner v hv)
  heads := by
    intro d hd hkey
    rcases List.mem_append.mp hd with hd | hd
    · rcases h.heads d hd hkey with hhead | ⟨hwaits, hrest⟩
      · exact .inl hhead
      · exact .inr ⟨hwaiting d.id hwaits, hrest⟩
    · rw [List.mem_singleton.mp hd] at hkey ⊢
      exact .inr ⟨hdoc hkey, hnone, hone⟩

theorem Heads.weaken {waiting waiting' : ℕ → Prop} {db : Db} (h : Heads waiting db)
    (hwaiting : ∀ pk, waiting pk → waiting' pk) : Heads waiting' db :=
  { h with
    heads := by
      intro doc hdoc hkey
      rcases h.heads doc hdoc hkey with hhead | ⟨hwaits, hrest⟩
      · exact .inl hhead
      · exact .inr ⟨hwaiting doc.id hwaits, hrest⟩ }

/-- A document was just inserted under a key, without a version. -/
structure Fresh (pk : ℕ) (w : World) : Prop where
  heads : Heads (· = pk) w.db
  row : ∃ doc ∈ w.db.documents, doc.id = pk
  empty : ∀ v ∈ w.db.versions, v.document ≠ pk

/-- The keys of a runbook that stand. -/
def Keys (rb : ℕ) (keys : List Str) (w : World) : Prop := ∀ key ∈ keys, Held w.db rb key

theorem Keys.steady {rb : ℕ} {keys : List Str} {w w' : World} (h : Steady w w')
    (hw : Keys rb keys w) : Keys rb keys w' := fun key hkey => h.held rb key (hw key hkey)

/-- `insertDocument`: the new row waits for its head, and all keys stay. -/
theorem insertDocument_meets (h : NewRow row) (rb : ℕ) (keys : List Str) :
    Meets (fun w => Headful w ∧ Keys rb keys w) (insertDocument env row)
      (fun pk w => Fresh pk w ∧ Keys rb keys w) Headful := by
  rintro w ⟨hw, hkeys⟩
  rw [insertDocument_run]
  by_cases htaken : keyTaken w.db (insertedRow env w row) = true
  · rw [if_pos htaken]
    exact hw
  · rw [if_neg htaken]
    have hpk : (insertedRow env w row).id = w.db.nextDocument := h.inserted_id w
    have hdoc : Heads (· = (insertedRow env w row).id)
        (w.withDocument (insertedRow env w row)).db :=
      Heads.withDocument hw hpk (h.inserted_head w) (h.inserted_number w) (fun _ => False.elim)
        fun _ => rfl
    refine ⟨⟨hdoc, ⟨_, List.mem_append_right _ (List.mem_singleton_self _), rfl⟩, ?_⟩, ?_⟩
    · intro v hv
      have hlt := hw.owner v hv
      rw [hpk]
      exact hlt.ne
    · intro key hkey
      obtain ⟨d, hd, hrb, hheld⟩ := hkeys key hkey
      exact ⟨d, List.mem_append_left _ hd, hrb, hheld⟩

/-- A row without a key waits for nothing. -/
theorem insertDocument_keyless (h : NewRow row) (hkey : ∀ id now, (row id now).key = none) :
    Keeps Headful (insertDocument env row) := by
  intro w hw
  rw [endState, insertDocument_run]
  by_cases htaken : keyTaken w.db (insertedRow env w row) = true
  · rw [if_pos htaken]
    exact hw
  · rw [if_neg htaken]
    have hnokey : (insertedRow env w row).key = none := (inserted_key w).trans (hkey _ _)
    exact Heads.withDocument hw (h.inserted_id w) (h.inserted_head w) (h.inserted_number w)
      (fun _ => id) fun hsome => absurd hnokey hsome

end Inserting

section Creating

variable {pk : ℕ} {file description : Str} {origin : Origin}

/-- A fresh document gets its first version. -/
theorem createNewVersion_fresh : Meets (Fresh pk) (createNewVersion env pk file description origin)
    (fun _ => Headful) fun _ => False := by
  rintro w ⟨hheads, ⟨doc, hdoc, rfl⟩, hempty⟩
  have hget := Table.get_of_mem hheads.documents hdoc
  have hfree : (w.db.versions.any fun v =>
      v.document = doc.id && v.version = nextVersionNumber w.db doc) = false := by
    rw [List.any_eq_false]
    intro v hv hfound
    simp only [Bool.and_eq_true, decide_eq_true_eq] at hfound
    exact hempty v hv hfound.1
  rw [createNewVersion_some hget, hfree]
  exact hheads.withVersion hdoc fun pk hpk => .inr hpk

/-- A version made under a key gives it its head. -/
theorem createNewVersion_pending :
    Meets (fun w => Heads (· = pk) w.db) (createNewVersion env pk file description origin)
      (fun _ => Headful) fun _ => True := by
  intro w hw
  cases h : Table.get Document.id w.db.documents pk with
  | none =>
    rw [createNewVersion_none h]
    trivial
  | some doc =>
    have hpk : doc.id = pk := Table.key_of_get h
    rw [createNewVersion_some h]
    by_cases hdup : (w.db.versions.any fun v =>
        v.document = pk && v.version = nextVersionNumber w.db doc) = true
    · rw [if_pos hdup]
      trivial
    · rw [if_neg hdup]
      exact hw.withVersion (Table.get_mem h) fun pk' hpk' => .inr (hpk'.trans hpk.symm)

theorem mdFile_returns {P : World → Prop} {body : Text} (hbody : (encode body).isSome = true) :
    Meets P (mdFile body) (fun _ => P) fun _ => False := by
  obtain ⟨text, htext⟩ := Option.isSome_iff_exists.mp hbody
  simp only [mdFile, htext]
  exact meets_pure fun _ h => h

theorem meets_headful {x : Py α} (hx : Moves Steady Steady x) :
    Meets Headful x (fun _ => Headful) Headful := meets_steady hx fun _ _ h hw => h.heads _ hw

theorem createDocument_leaves {rb : Runbook} {body : Text} {fields : NewDocument}
    {E : World → Prop} (hE : ∀ w, Headful w → E w)
    (hfile : ∀ pk, Meets (Fresh pk) (mdFile body) (fun _ => Fresh pk) E) :
    Meets Headful (createDocument env rb body fields origin) (fun _ => Headful) E := by
  have hweaken : ∀ {γ : Type} {x : Py γ}, Moves Steady Steady x →
      Meets Headful x (fun _ => Headful) E := fun hx =>
    (meets_headful hx).weaken (fun _ h => h) (fun _ _ h => h) hE
  apply (hweaken (steady_aside (aside_orRaise _))).bind
  intro _
  apply (hweaken (steady_aside aside_getDb)).bind
  intro db
  apply (hweaken (steady_aside (aside_orRaise _))).bind
  intro sec
  apply ((insertDocument_meets ⟨fun _ _ => rfl, fun _ _ => rfl, fun _ _ => rfl⟩ rb.id []).weaken
    (fun _ h => ⟨h, fun _ hkey => absurd hkey List.not_mem_nil⟩) (fun _ _ h => h.1) hE).bind
  intro pk
  apply (hfile pk).bind
  intro text
  apply (createNewVersion_fresh.weaken (fun _ h => h) (fun _ _ h => h) fun _ => False.elim).bind
  intro _
  exact meets_pure fun _ h => h

/-- `create_document` leaves a head behind every key, when the body can be encoded. -/
theorem createDocument_meets {rb : Runbook} {body : Text} {fields : NewDocument}
    (hbody : (encode body).isSome = true) :
    Meets Headful (createDocument env rb body fields origin) (fun _ => Headful) Headful :=
  createDocument_leaves (fun _ h => h) fun _ =>
    (mdFile_returns hbody).weaken (fun _ h => h) (fun _ _ h => h) fun _ => False.elim

theorem createDocument_returns (rb : Runbook) (body : Text) (fields : NewDocument) :
    Meets Headful (createDocument env rb body fields origin) (fun _ => Headful)
      fun _ => True := by
  apply createDocument_leaves fun _ _ => trivial
  intro pk w hw
  cases hbody : encode body with
  | none =>
    simp only [mdFile, hbody]
    trivial
  | some text =>
    simp only [mdFile, hbody]
    exact hw

/-- Without a key nothing waits for the version that could not be made. -/
theorem createDocument_keyless {rb : Runbook} {body : Text} {fields : NewDocument}
    (hkey : fields.key = none) : Keeps Headful (createDocument env rb body fields origin) := by
  apply (keeps_of_steady (steady_aside (aside_orRaise _))).bind
  intro _
  apply (keeps_of_steady (steady_aside aside_getDb)).bind
  intro db
  apply (keeps_of_steady (steady_aside (aside_orRaise _))).bind
  intro sec
  apply (insertDocument_keyless ⟨fun _ _ => rfl, fun _ _ => rfl, fun _ _ => rfl⟩ fun _ _ => hkey).bind
  intro pk
  apply (keeps_of_steady (steady_aside (aside_mdFile body))).bind
  intro text
  apply (keeps_of_steady steady_createNewVersion).bind
  intro _
  exact keeps_of_steady (steady_aside (aside_pure pk))

end Creating

/-! ### Putting, copying and cloning -/

theorem keeps_putDocument (p : Put) : Keeps Headful (putDocument env p) := by
  apply (keeps_of_steady (steady_aside aside_getDb)).bind
  intro db
  apply (keeps_of_steady (steady_aside (aside_orRaise _))).bind
  intro rb
  apply keeps_atomic
  have hweaken : ∀ {γ : Type} {x : Py γ}, Moves Steady Steady x →
      Meets Headful x (fun _ => Headful) fun _ => True := fun hx =>
    (meets_headful hx).weaken (fun _ h => h) (fun _ _ h => h) fun _ _ => trivial
  apply (hweaken (steady_aside aside_getDb)).bind
  intro db
  cases findDocument db rb.id p.key with
  | none => exact createDocument_returns rb p.body _
  | some doc =>
    apply hweaken
    apply steady_bind (steady_aside aside_getDb)
    intro db
    apply steady_bind (steady_aside (aside_orRaise _))
    intro _
    apply steady_bind (steady_aside aside_getDb)
    intro db
    apply steady_bind (steady_aside (aside_orRaise _))
    intro sec
    apply steady_bind (steady_aside (aside_updateMeta p sec doc))
    intro _
    exact steady_bind (steady_writeVersion _ _ _ _ _ _) fun _ => steady_aside (aside_pure _)

theorem steady_rewriteCopy (c : Copy) (target : ℕ) (body rewritten : Str) :
    Moves Steady Steady (rewriteCopy env c target body rewritten) := by
  rw [rewriteCopy]
  by_cases hsame : rewritten ≠ body
  · rw [if_pos hsame]
    exact steady_writeVersion _ _ _ _ _ _
  · rw [if_neg hsame]
    exact steady_aside (aside_pure ())

theorem keeps_copyDocument (c : Copy) : Keeps Headful (copyDocument env c) := by
  apply (keeps_of_steady (steady_aside (aside_loadDocument c.source))).bind
  intro src
  apply (keeps_of_steady (steady_aside aside_getDb)).bind
  intro db
  apply (keeps_of_steady (steady_aside (aside_orRaise _))).bind
  intro _
  apply (keeps_of_steady (steady_aside aside_getDb)).bind
  intro db
  apply (keeps_of_steady (steady_aside (aside_orRaise _))).bind
  intro rb
  apply (keeps_of_steady (steady_aside aside_get)).bind
  intro w
  apply (keeps_putDocument _).bind
  intro target
  apply (keeps_of_steady (steady_aside (aside_cloneReferencedImages _ _ _ _))).bind
  intro rewritten
  apply (keeps_of_steady (steady_rewriteCopy _ _ _ _)).bind
  intro _
  exact keeps_of_steady (steady_aside (aside_pure _))

theorem clonePage_returns (target : ℕ) (sectionMap : List (ℕ × ℕ)) (copyLocked : Bool)
    (actor : Option Actor) (doc : Document) :
    Meets Headful (clonePage env target sectionMap copyLocked actor doc) (fun _ => Headful)
      fun _ => True := by
  apply ((insertDocument_meets ⟨fun _ _ => rfl, fun _ _ => rfl, fun _ _ => rfl⟩ target []).weaken
    (fun _ h => ⟨h, fun _ hkey => absurd hkey List.not_mem_nil⟩) (fun _ _ h => h.1.heads)
    fun _ _ => trivial).bind
  intro pk
  have hwaits : ∀ w w', Steady w w' → Heads (· = pk) w.db → Heads (· = pk) w'.db :=
    fun _ _ h => h.heads (· = pk)
  apply ((meets_steady (steady_aside aside_get) hwaits).weaken (fun _ h => h) (fun _ _ h => h)
    fun _ _ => trivial).bind
  intro w
  apply ((meets_steady (steady_aside (aside_cloneReferencedImages _ _ _ _)) hwaits).weaken
    (fun _ h => h) (fun _ _ h => h) fun _ _ => trivial).bind
  intro body
  exact createNewVersion_pending

theorem clonePages_returns (target : ℕ) (sectionMap : List (ℕ × ℕ)) (copyLocked : Bool)
    (actor : Option Actor) (docs : List Document) :
    Meets Headful (clonePages env target sectionMap copyLocked actor docs) (fun _ => Headful)
      fun _ => True := by
  induction docs with
  | nil => exact meets_pure fun _ h => h
  | cons doc docs ih => exact (clonePage_returns _ _ _ _ _).bind fun _ => ih

theorem keeps_cloneRunbook (c : Clone) : Keeps Headful (cloneRunbook env c) := by
  apply keeps_atomic
  have hweaken : ∀ {γ : Type} {x : Py γ}, Moves Aside Aside x →
      Meets Headful x (fun _ => Headful) fun _ => True := fun hx =>
    (meets_headful (steady_aside hx)).weaken (fun _ h => h) (fun _ _ h => h) fun _ _ => trivial
  apply (hweaken aside_getDb).bind
  intro db
  apply (hweaken (aside_orRaise _)).bind
  intro src
  apply (hweaken aside_getDb).bind
  intro db
  apply (hweaken (aside_insertRunbook _)).bind
  intro target
  apply (hweaken (aside_cloneSections _ _)).bind
  intro sectionMap
  apply (hweaken aside_getDb).bind
  intro db
  exact (clonePages_returns _ _ _ _ _).bind fun _ => meets_pure fun _ h => h

/-! ### Texts that are not empty -/

theorem replaceFrom_ne_nil {old new s : Str} (hnew : new ≠ []) (hs : s ≠ []) :
    replaceFrom old new 0 s ≠ [] := by
  cases s with
  | nil => exact absurd rfl hs
  | cons c s =>
    rw [replaceFrom]
    by_cases hmatch : old <+: c :: s
    · rw [if_pos hmatch]
      exact List.append_ne_nil_of_left_ne_nil hnew _
    · rw [if_neg hmatch]
      exact List.cons_ne_nil _ _

theorem replaceText_ne_nil {old new s : Str} (hnew : new ≠ []) (h : s ≠ [] ∨ old = []) :
    replaceText old new s ≠ [] := by
  rw [replaceText]
  by_cases hold : old = []
  · rw [if_pos hold]
    exact List.append_ne_nil_of_left_ne_nil hnew _
  · rw [if_neg hold]
    exact replaceFrom_ne_nil hnew (h.resolve_right hold)

theorem serveUrl_ne_nil (pk : ℕ) : serveUrl pk ≠ [] :=
  List.append_ne_nil_of_right_ne_nil _ (List.cons_ne_nil _ _)

/-- A text stays empty only when it is and no image has an empty reference. -/
theorem createImages_ne_nil {pk : ℕ} {actor : Option Actor} {desired : List Desired}
    {content text : Str} {w w' : World}
    (hrun : createImages env pk actor desired content w = .ok text w')
    (h : content ≠ [] ∨ ∃ d ∈ desired, d.ref = []) : text ≠ [] := by
  induction desired generalizing content w with
  | nil =>
    obtain ⟨rfl, -⟩ := EStateM.Result.ok.inj hrun
    rcases h with h | ⟨d, hd, -⟩
    · exact h
    · exact absurd hd List.not_mem_nil
  | cons d desired ih =>
    rw [createImages] at hrun
    cases hinsert : insertImage pk d.blob (storedExtension env.unicode (posixBasename d.ref))
        d.alt actor w with
    | error e w₁ =>
      rw [bind_of_error hinsert] at hrun
      cases hrun
    | ok image w₁ =>
      rw [bind_of_ok hinsert] at hrun
      apply ih hrun
      by_cases hnow : content ≠ [] ∨ d.ref = []
      · exact .inl (replaceText_ne_nil (serveUrl_ne_nil image) hnow)
      · rcases h with h | ⟨d', hd', href⟩
        · exact absurd (.inl h) hnow
        · rcases List.mem_cons.mp hd' with rfl | hd'
          · exact absurd (.inr href) hnow
          · exact .inr ⟨d', hd', href⟩

theorem urlByDigest_ne_nil {existing : List DocumentImage} {image : DocumentImage}
    (h : image ∈ existing) : urlByDigest env existing (env.sha256 image.data) ≠ [] := by
  rw [urlByDigest]
  have hfound : (existing.reverse.find? fun i =>
      env.sha256 i.data = env.sha256 image.data).isSome = true := by
    rw [List.find?_isSome]
    exact ⟨image, List.mem_reverse.mpr h, by simp⟩
  obtain ⟨i, hi⟩ := Option.isSome_iff_exists.mp hfound
  rw [hi]
  exact serveUrl_ne_nil i.id

theorem reuseImages_ne_nil {existing : List DocumentImage} {desired : List Desired} {content : Str}
    (hurls : ∀ d ∈ desired, urlByDigest env existing (env.sha256 d.blob) ≠ [])
    (h : content ≠ [] ∨ ∃ d ∈ desired, d.ref = []) :
    reuseImages env existing desired content ≠ [] := by
  rw [reuseImages]
  induction desired generalizing content with
  | nil =>
    rcases h with h | ⟨d, hd, -⟩
    · exact h
    · exact absurd hd List.not_mem_nil
  | cons d desired ih =>
    apply ih fun d' hd' => hurls d' (List.mem_cons_of_mem _ hd')
    by_cases hnow : content ≠ [] ∨ d.ref = []
    · exact .inl (replaceText_ne_nil (hurls d List.mem_cons_self) hnow)
    · rcases h with h | ⟨d', hd', href⟩
      · exact absurd (.inl h) hnow
      · rcases List.mem_cons.mp hd' with rfl | hd'
        · exact absurd (.inr href) hnow
        · exact .inr ⟨d', hd', href⟩

/-- Images that stand as wanted have every digest that is wanted. -/
theorem exists_of_sameImages {existing : List DocumentImage} {desired : List Desired}
    (h : sameImages env existing desired = true) {d : Desired} (hd : d ∈ desired) :
    ∃ image ∈ existing, env.sha256 image.data = env.sha256 d.blob ∧ image.alt = d.alt := by
  rw [sameImages, Bool.and_eq_true, List.isPerm_iff] at h
  have hmem := h.2.mem_iff.mpr
    (List.mem_map_of_mem (f := fun d : Desired => (env.sha256 d.blob, d.alt)) hd)
  obtain ⟨image, himage, heq⟩ := List.mem_map.mp hmem
  obtain ⟨hsha, halt⟩ := Prod.mk.inj heq
  exact ⟨image, himage, hsha, halt⟩

theorem importImages_ne_nil {pk : ℕ} {actor : Option Actor} {desired : List Desired}
    {content text : Str} {w w' : World}
    (hrun : importImages env pk actor desired content w = .ok text w')
    (h : content ≠ [] ∨ ∃ d ∈ desired, d.ref = []) : text ≠ [] := by
  by_cases hsame : sameImages env (imagesOf w.db pk) desired = true
  · have heq : importImages env pk actor desired content w =
        .ok (reuseImages env (imagesOf w.db pk) desired content) w := by
      simp only [importImages, getDb, bind, EStateM.bind, get, getThe, MonadStateOf.get,
        get_eq_ok, pure, EStateM.pure, hsame, if_true]
    obtain ⟨rfl, -⟩ := EStateM.Result.ok.inj (heq.symm.trans hrun)
    apply reuseImages_ne_nil ?_ h
    intro d hd
    obtain ⟨image, himage, hsha, -⟩ := exists_of_sameImages hsame hd
    exact hsha ▸ urlByDigest_ne_nil himage
  · have heq : importImages env pk actor desired content w =
        createImages env pk actor desired content { w with db := deleteImages pk w.db } := by
      simp only [importImages, getDb, bind, EStateM.bind, get, getThe, MonadStateOf.get,
        get_eq_ok, pure, EStateM.pure, hsame]
      rfl
    exact createImages_ne_nil (heq.symm.trans hrun) h

theorem readImages_refs {entries : List (Str × Blob)} {dir : Str} {specs : List ImageSpec}
    {desired : List Desired} {w w' : World}
    (hrun : readImages entries dir specs w = .ok desired w') :
    desired.map Desired.ref = specs.map ImageSpec.ref := by
  induction specs generalizing desired w w' with
  | nil =>
    obtain ⟨rfl, -⟩ := EStateM.Result.ok.inj hrun
    rfl
  | cons spec specs ih =>
    rw [readImages] at hrun
    cases hread : zipRead entries (if dir = [] then spec.ref else posixJoin dir spec.ref) with
    | none =>
      rw [hread] at hrun
      cases hrun
    | some blob =>
      rw [hread] at hrun
      simp only at hrun
      cases hrest : readImages entries dir specs w with
      | error e w₁ =>
        rw [bind_of_error hrest] at hrun
        cases hrun
      | ok rest w₁ =>
        rw [bind_of_ok hrest] at hrun
        obtain ⟨rfl, -⟩ := EStateM.Result.ok.inj hrun
        rw [List.map_cons, List.map_cons, ih hrest]

/-! ### Import -/

/-- The text of a spec stays empty when its images are put in. -/
def DocumentSpec.Blank (entries : List (Str × Blob)) (spec : DocumentSpec) : Prop :=
  readContent entries spec.path = .ok [] ∧ ∀ image ∈ spec.images, image.ref ≠ []

section Importing

variable {rb : ℕ} {keys : List Str} {args : Import} {entries : List (Str × Blob)}
  {spec : DocumentSpec}

/-- While a document is imported: it may still wait for its head, and then its key is new. -/
structure Importing (rb : ℕ) (keys : List Str) (key : Str) (pk : ℕ) (w : World) : Prop where
  heads : Heads (· = pk) w.db
  standing : Keys rb keys w
  waits : Headful w ∨ key ∉ keys

theorem Importing.steady {key : Str} {pk : ℕ} {w w' : World} (h : Steady w w')
    (hw : Importing rb keys key pk w) : Importing rb keys key pk w' where
  heads := h.heads _ hw.heads
  standing := hw.standing.steady h
  waits := hw.waits.imp_left (h.heads _)

theorem upsertDocument_none {sec : Option ℕ} {w : World}
    (h : findDocument w.db rb spec.key = none) :
    upsertDocument env rb sec args spec w = (do
      let pk ← insertDocument env fun id now =>
        { id := id, runbook := some rb, key := some spec.key, sec := sec,
          title := spec.title.getD spec.key, description := spec.description.getD [],
          docType := spec.docType.getD [], isGenerated := true, source := args.source,
          locked := args.locked, via := "import".toList,
          createdBy := args.actor.bind Actor.id, updatedAt := now }
      return (pk, true, true) : Py (ℕ × Bool × Bool)) w := by
  simp only [upsertDocument, getDb, bind, EStateM.bind, get, getThe, MonadStateOf.get, get_eq_ok,
    pure, EStateM.pure, h]

theorem upsertDocument_some {sec : Option ℕ} {w : World} {doc : Document}
    (h : findDocument w.db rb spec.key = some doc) :
    upsertDocument env rb sec args spec w = (do
      refreshDocument env sec args spec doc
      return (doc.id, false, spec.refresh sec args doc ≠ doc) : Py (ℕ × Bool × Bool)) w := by
  simp only [upsertDocument, getDb, bind, EStateM.bind, get, getThe, MonadStateOf.get, get_eq_ok,
    pure, EStateM.pure, h]

theorem upsertDocument_meets (sec : Option ℕ) :
    Meets (fun w => Headful w ∧ Keys rb keys w) (upsertDocument env rb sec args spec)
      (fun upserted => Importing rb keys spec.key upserted.1) fun _ => True := by
  rintro w ⟨hw, hkeys⟩
  cases h : findDocument w.db rb spec.key with
  | none =>
    have hnew : spec.key ∉ keys := by
      intro hkey
      have hheld := (held_iff w.db rb spec.key).mp (hkeys spec.key hkey)
      rw [h] at hheld
      cases hheld
    rw [upsertDocument_none h]
    apply Meets.bind ((insertDocument_meets ⟨fun _ _ => rfl, fun _ _ => rfl, fun _ _ => rfl⟩ rb keys).weaken
      (fun _ h => h) (fun pk w' h' => (⟨h'.1.heads, h'.2, .inr hnew⟩ :
        Importing rb keys spec.key pk w')) fun _ _ => trivial) ?_ w ⟨hw, hkeys⟩
    intro pk
    exact meets_pure fun _ h => h
  | some doc =>
    rw [upsertDocument_some h]
    apply Meets.bind ((meets_steady (steady_aside (aside_refreshDocument sec args spec doc))
      fun _ _ => Importing.steady).weaken (fun _ h => h) (fun _ _ h => h) fun _ _ => trivial) ?_ w
      (⟨hw.weaken fun _ => False.elim, hkeys, .inl hw⟩ : Importing rb keys spec.key doc.id w)
    intro _
    exact meets_pure fun _ h => h

theorem writeVersion_pending {pk : ℕ} {body : Text} {description : Str} {origin : Origin}
    {bypassLock : Bool} :
    Meets (fun w => Heads (· = pk) w.db)
      (writeVersion env pk body .newVersion description origin bypassLock) (fun _ => Headful)
      fun _ => True := by
  apply returns_atomic
  have hweaken : ∀ {γ : Type} {x : Py γ}, Moves Aside Aside x →
      Meets (fun w => Heads (· = pk) w.db) x (fun _ w => Heads (· = pk) w.db) fun _ => True :=
    fun hx => (meets_steady (steady_aside hx) fun _ _ h => h.heads (· = pk)).weaken (fun _ h => h)
      (fun _ _ h => h) fun _ _ => trivial
  apply (hweaken (aside_loadDocument pk)).bind
  intro doc
  apply (hweaken aside_getDb).bind
  intro db
  apply (hweaken (aside_orRaise _)).bind
  intro _
  apply (hweaken (aside_mdFile body)).bind
  intro file
  exact createNewVersion_pending

/-- A text that is not the head's becomes a version; one that is, and is not empty, shows that
there is a head. -/
theorem importContent_meets {key : Str} {pk : ℕ} {content : Str}
    (hcontent : key ∉ keys → content ≠ []) :
    Meets (Importing rb keys key pk) (importContent env pk args content)
      (fun _ w => Headful w ∧ Keys rb keys w) fun _ => True := by
  intro w hw
  cases h : Table.get Document.id w.db.documents pk with
  | none =>
    have hrun : importContent env pk args content w = .error .documentNotFound w :=
      bind_of_error (loadDocument_none h)
    rw [hrun]
    trivial
  | some doc =>
    have hrun : importContent env pk args content w =
        (if content ≠ w.readHead doc then do
            writeVersion env pk (Text.ofStr content) .newVersion [] args.origin true
            return true
          else return false : Py Bool) w := by
      rw [importContent, bind_of_ok (loadDocument_some h)]
      rfl
    rw [hrun]
    by_cases hdiffer : content ≠ w.readHead doc
    · rw [if_pos hdiffer]
      have hsteady : Moves Steady Steady
          (writeVersion env pk (Text.ofStr content) .newVersion [] args.origin true) :=
        steady_writeVersion _ _ _ _ _ _
      have hpending : Meets (fun w => Heads (· = pk) w.db)
          (writeVersion env pk (Text.ofStr content) .newVersion [] args.origin true)
          (fun _ => Headful) fun _ => True := writeVersion_pending
      have hkeys := meets_steady hsteady (fun _ _ => Keys.steady) w hw.standing
      have hheads := hpending w hw.heads
      cases hwrite : writeVersion env pk (Text.ofStr content) .newVersion [] args.origin true w with
      | error e w' =>
        rw [bind_of_error hwrite]
        trivial
      | ok a w' =>
        rw [hwrite] at hkeys hheads
        rw [bind_of_ok hwrite]
        exact ⟨hheads, hkeys⟩
    · rw [if_neg hdiffer]
      have hsame : content = w.readHead doc := not_not.mp hdiffer
      refine ⟨?_, hw.standing⟩
      rcases hw.waits with hheadful | hnew
      · exact hheadful
      · refine { hw.heads with heads := ?_ }
        intro d hd hkey
        rcases hw.heads.heads d hd hkey with hhead | ⟨hwaits, hnone, -⟩
        · exact .inl hhead
        · have hid : d.id = doc.id := by
            rw [Table.key_of_get h]
            exact hwaits
          have heq : d = doc := hw.heads.documents.eq_of_key hd (Table.get_mem h) hid
          rw [heq] at hnone
          have hempty : w.readHead doc = [] := by rw [World.readHead, headVersion_of_none hnone]
          exact absurd (hsame.trans hempty) (hcontent hnew)

theorem importDocument_meets {sections : List (Str × ℕ)}
    (hblank : spec.Blank entries → spec.key ∈ keys) :
    Meets (fun w => Headful w ∧ Keys rb keys w)
      (importDocument env rb sections args entries spec) (fun _ w => Headful w ∧ Keys rb keys w)
      fun _ => True := by
  have hcontent : Meets (fun w => Headful w ∧ Keys rb keys w)
      (orRaise (readContent entries spec.path) : Py Str)
      (fun content w => (Headful w ∧ Keys rb keys w) ∧ readContent entries spec.path = .ok content)
      fun _ => True := by
    intro w hw
    cases h : readContent entries spec.path with
    | error e => trivial
    | ok content => exact ⟨hw, rfl⟩
  apply hcontent.bind
  rintro content w ⟨hw, hread⟩
  refine Meets.bind (upsertDocument_meets _) ?_ w hw
  intro upserted
  have haside : ∀ {γ : Type} {x : Py γ}, Moves Aside Aside x →
      Meets (Importing rb keys spec.key upserted.1) x
        (fun _ => Importing rb keys spec.key upserted.1) fun _ => True := fun hx =>
    (meets_steady (steady_aside hx) fun _ _ => Importing.steady).weaken (fun _ h => h)
      (fun _ _ h => h) fun _ _ => trivial
  refine Meets.bind ((haside (aside_readImages _ _ _)).value
    (V := fun desired => desired.map Desired.ref = spec.images.map ImageSpec.ref)
    fun _ _ _ => readImages_refs) ?_
  intro desired w hw
  obtain ⟨hw, hrefs⟩ := hw
  refine Meets.bind ((haside (aside_importImages _ _ _ _)).value
    (V := fun text => (content ≠ [] ∨ ∃ d ∈ desired, d.ref = []) → text ≠ [])
    fun _ _ _ => importImages_ne_nil) ?_ w hw
  intro text w hw
  obtain ⟨hw, htext⟩ := hw
  have hnew : spec.key ∉ keys → text ≠ [] := by
    intro hkey
    apply htext
    by_contra hempty
    rw [not_or, not_not] at hempty
    apply hkey
    apply hblank
    refine ⟨hempty.1 ▸ hread, ?_⟩
    intro image himage href
    have hmem : ([] : Str) ∈ desired.map Desired.ref := by
      rw [hrefs]
      exact List.mem_map.mpr ⟨image, himage, href⟩
    obtain ⟨d, hd, hdref⟩ := List.mem_map.mp hmem
    exact hempty.2 ⟨d, hd, hdref⟩
  exact Meets.bind (importContent_meets hnew) (fun _ => meets_pure fun _ h => h) w hw

theorem importDocuments_meets {sections : List (Str × ℕ)} {specs : List DocumentSpec}
    (hblank : ∀ spec ∈ specs, spec.Blank entries → spec.key ∈ keys) :
    Meets (fun w => Headful w ∧ Keys rb keys w)
      (importDocuments env rb sections args entries specs) (fun _ w => Headful w ∧ Keys rb keys w)
      fun _ => True := by
  induction specs with
  | nil => exact meets_pure fun _ h => h
  | cons spec specs ih =>
    apply (importDocument_meets (hblank spec List.mem_cons_self)).bind
    intro outcome
    apply (ih fun s hs => hblank s (List.mem_cons_of_mem _ hs)).bind
    intro outcomes
    exact meets_pure fun _ h => h

end Importing

end CwStation.Documents
