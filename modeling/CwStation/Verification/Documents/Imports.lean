import CwStation.Verification.Documents.Clients

/-! # Imports document by document

What the import of one document does to its row, to its images and to the other documents. -/

namespace CwStation.Documents

open Effects

variable {env : Env} {α β : Type}

/-! ### Keys -/

/-- A document's place among the keys. -/
def keyed (doc : Document) : ℕ × Option ℕ × Option Str := (doc.id, doc.runbook, doc.key)

/-- No two documents of a runbook have one key. -/
def Apart (w : World) : Prop :=
  ∀ d ∈ w.db.documents, ∀ d' ∈ w.db.documents, ∀ rb key, d.runbook = some rb → d.key = some key →
    d'.runbook = some rb → d'.key = some key → d.id = d'.id

theorem Apart.of_keyed {w w' : World} (h : Apart w)
    (hkeyed : ∀ d' ∈ w'.db.documents, ∃ d ∈ w.db.documents, keyed d = keyed d') : Apart w' := by
  intro d₁ hd₁ d₂ hd₂ rb key hrb₁ hkey₁ hrb₂ hkey₂
  obtain ⟨e₁, he₁, heq₁⟩ := hkeyed d₁ hd₁
  obtain ⟨e₂, he₂, heq₂⟩ := hkeyed d₂ hd₂
  simp only [keyed, Prod.mk.injEq] at heq₁ heq₂
  obtain ⟨hid₁, hrun₁, hk₁⟩ := heq₁
  obtain ⟨hid₂, hrun₂, hk₂⟩ := heq₂
  rw [← hid₁, ← hid₂]
  exact h e₁ he₁ e₂ he₂ rb key (hrun₁.trans hrb₁) (hk₁.trans hkey₁) (hrun₂.trans hrb₂)
    (hk₂.trans hkey₂)

theorem Apart.of_alter {w w' : World} {pk : ℕ} {update : Document → Document} (h : Apart w)
    (hdocuments : w'.db.documents = Table.alter Document.id pk update w.db.documents)
    (hupdate : ∀ d, keyed (update d) = keyed d) : Apart w' := by
  apply h.of_keyed
  intro d' hd'
  rw [hdocuments] at hd'
  obtain ⟨d, hd, rfl⟩ := Table.mem_alter hd'
  refine ⟨d, hd, ?_⟩
  by_cases hpk : d.id = pk
  · rw [if_pos hpk, hupdate]
  · rw [if_neg hpk]

theorem Apart.of_documents {w w' : World} (h : Apart w)
    (hdocuments : w'.db.documents = w.db.documents) : Apart w' :=
  h.of_keyed fun d' hd' => ⟨d', hdocuments ▸ hd', rfl⟩

/-- The unique constraint keeps documents apart. -/
theorem Apart.insert {w : World} {doc : Document} (h : Apart w)
    (hfree : keyTaken w.db doc = false) : Apart (w.withDocument doc) := by
  have hnew : ∀ d ∈ w.db.documents, ∀ rb key, d.runbook = some rb → d.key = some key →
      doc.runbook = some rb → doc.key = some key → False := by
    intro d hd rb key hrb hkey hrb' hkey'
    have htaken : keyTaken w.db doc = true := by
      rw [keyTaken, hrb', hkey']
      simp only [Option.isSome_some, Bool.true_and, List.any_eq_true, Bool.and_eq_true,
        decide_eq_true_eq]
      exact ⟨d, hd, hrb, hkey⟩
    rw [hfree] at htaken
    cases htaken
  intro d₁ hd₁ d₂ hd₂ rb key hrb₁ hkey₁ hrb₂ hkey₂
  have hsplit : ∀ d ∈ (w.withDocument doc).db.documents, d ∈ w.db.documents ∨ d = doc := by
    intro d hd
    rcases List.mem_append.mp hd with hd | hd
    · exact .inl hd
    · exact .inr (List.mem_singleton.mp hd)
  rcases hsplit d₁ hd₁ with hold₁ | rfl
  · rcases hsplit d₂ hd₂ with hold₂ | rfl
    · exact h d₁ hold₁ d₂ hold₂ rb key hrb₁ hkey₁ hrb₂ hkey₂
    · exact (hnew d₁ hold₁ rb key hrb₁ hkey₁ hrb₂ hkey₂).elim
  · rcases hsplit d₂ hd₂ with hold₂ | rfl
    · exact (hnew d₂ hold₂ rb key hrb₂ hkey₂ hrb₁ hkey₁).elim
    · rfl

/-- Documents stay apart, whatever is done. -/
theorem apart_stable (env : Env) : Stable env fun w w' => Apart w → Apart w' where
  refl _ h := h
  trans _ _ _ h h' hw := h' (h hw)
  beside w w' h hw := by
    apply hw.of_keyed
    intro d' hd'
    have hface := List.mem_map_of_mem (f := face) hd'
    rw [h.faces] at hface
    obtain ⟨d, hd, heq⟩ := List.mem_map.mp hface
    simp only [face, core, Prod.mk.injEq] at heq
    exact ⟨d, hd, by rw [keyed, keyed, heq.1.1, heq.2.1, heq.2.2]⟩
  rollback _ _ _ hw := hw.of_documents rfl
  version pk file description origin w := by
    cases h : Table.get Document.id w.db.documents pk with
    | none =>
      rw [createNewVersion_none h]
      exact id
    | some doc =>
      rw [createNewVersion_some h]
      by_cases hdup : (w.db.versions.any fun v =>
          v.document = pk && v.version = nextVersionNumber w.db doc) = true
      · rw [if_pos hdup]
        exact fun hw => hw.of_documents rfl
      · rw [if_neg hdup]
        exact fun hw => hw.of_alter withVersion_documents fun _ => rfl
  insert row _ w := by
    rw [insertDocument_run]
    by_cases htaken : keyTaken w.db (insertedRow env w row) = true
    · rw [if_pos htaken]
      exact fun hw => hw.of_documents rfl
    · rw [if_neg htaken]
      exact fun hw => hw.insert (Bool.not_eq_true _ ▸ htaken)
  overwrite pk body origin w := by
    cases h : Table.get Document.id w.db.documents pk with
    | none =>
      rw [overwriteHead_noDocument h]
      exact id
    | some doc =>
      cases hhead : headVersion w.db doc with
      | none =>
        rw [overwriteHead_none h hhead]
        exact id
      | some v =>
        cases htext : encode body with
        | none =>
          rw [overwriteHead_unencodable h hhead htext]
          exact fun hw => hw.of_documents rfl
        | some text =>
          rw [overwriteHead_some h hhead htext]
          exact fun hw => hw.of_alter rfl fun _ => rfl
  prune policy pk w := by
    cases h : Table.get Document.id w.db.documents pk with
    | none =>
      rw [endState_pruneVersions_none policy h]
      exact id
    | some doc =>
      rw [endState_pruneVersions policy h]
      intro hw
      apply hw.of_keyed
      intro d' hd'
      obtain ⟨d, hd, rfl⟩ := List.mem_map.mp hd'
      exact ⟨d, hd, rfl⟩
  delete pk w hw := hw.of_keyed fun d' hd' => ⟨d', List.mem_of_mem_filter hd', rfl⟩

theorem World.Site.apart {w : World} (h : w.Site) : Apart w := by
  intro d hd
  rw [h.documents] at hd
  exact absurd hd List.not_mem_nil

theorem apart_run (env : Env) {w : World} (ops : List Op) (h : w.Site) : Apart (run env ops w) :=
  (apart_stable env).run ops w h.apart

/-! ### What a bundle says of a document -/

/-- The place of an image in the archive. -/
def imagePath (dir : Str) (image : ImageSpec) : Str :=
  if dir = [] then image.ref else posixJoin dir image.ref

/-- An image as the archive has it. -/
def Pictures (entries : List (Str × Blob)) (dir : Str) (image : ImageSpec) (d : Desired) : Prop :=
  d.ref = image.ref ∧ zipRead entries (imagePath dir image) = some d.blob

/-- The text with each reference, one after the other, turned into the URL of an image that has
the digest of the archive's. -/
def Linked (env : Env) (images : List DocumentImage) : List Desired → Str → Str → Prop
  | [], text, shown => shown = text
  | d :: desired, text, shown => ∃ image ∈ images, env.sha256 image.data = env.sha256 d.blob ∧
      Linked env images desired (replaceText d.ref (serveUrl image.id) text) shown

/-- The document has the title and the text of the bundle. -/
structure Told (env : Env) (entries : List (Str × Blob)) (w : World) (spec : DocumentSpec)
    (doc : Document) : Prop where
  title : ∀ title, spec.title = some title → doc.title = title
  content : ∃ text desired, readContent entries spec.path = .ok text ∧
    List.Forall₂ (Pictures entries (posixDirname spec.path)) spec.images desired ∧
    Linked env (imagesOf w.db doc.id) desired text (w.readHead doc)

/-- What the bundle says last under a key. -/
def lastSpec (specs : List DocumentSpec) (key : Str) : Option DocumentSpec :=
  Table.get DocumentSpec.key specs.reverse key

theorem lastSpec_append (specs : List DocumentSpec) (spec : DocumentSpec) (key : Str) :
    lastSpec (specs ++ [spec]) key = if spec.key = key then some spec else lastSpec specs key := by
  rw [lastSpec, List.reverse_append, List.reverse_singleton, List.singleton_append, Table.get,
    List.find?_cons]
  by_cases hkey : spec.key = key
  · rw [decide_eq_true hkey, if_pos hkey]
  · rw [decide_eq_false hkey, if_neg hkey]
    rfl

theorem lastSpec_isSome {specs : List DocumentSpec} {key : Str}
    (h : key ∈ specs.map DocumentSpec.key) : ∃ spec, lastSpec specs key = some spec := by
  obtain ⟨spec, hspec, hkey⟩ := List.mem_map.mp h
  exact Option.isSome_iff_exists.mp
    (Table.get_isSome_iff.mpr ⟨spec, List.mem_reverse.mpr hspec, hkey⟩)

theorem mem_of_lastSpec {specs : List DocumentSpec} {key : Str} {spec : DocumentSpec}
    (h : lastSpec specs key = some spec) : spec ∈ specs ∧ spec.key = key :=
  ⟨List.mem_reverse.mp (Table.get_mem h), Table.key_of_get h⟩

/-! ### Images -/

theorem mem_imagesOf {db : Db} {pk : ℕ} {image : DocumentImage} :
    image ∈ imagesOf db pk ↔ image ∈ db.images ∧ image.document = pk := by
  rw [imagesOf, List.mem_insertionSort, List.mem_filter, decide_eq_true_eq]

theorem insertImage_run (document : ℕ) (data : Blob) (ext alt : Str) (actor : Option Actor)
    (w : World) :
    insertImage document data ext alt actor w = .ok w.db.nextImage
      { w with
        db := { w.db with
          images := w.db.images ++
            [{ id := w.db.nextImage, document := document, data := data, ext := ext, alt := alt,
               uploadedBy := actor.bind Actor.id, createdAt := w.now }]
          nextImage := w.db.nextImage + 1 }
        now := w.now + 1 } := rfl

/-- New images stay, and the text shows them. -/
theorem createImages_linked {pk : ℕ} {actor : Option Actor} {desired : List Desired}
    {content text : Str} {w w' : World}
    (hrun : createImages env pk actor desired content w = .ok text w') :
    Linked env (imagesOf w'.db pk) desired content text ∧ imagesOf w.db pk ⊆ imagesOf w'.db pk := by
  induction desired generalizing content w with
  | nil =>
    obtain ⟨rfl, rfl⟩ := EStateM.Result.ok.inj hrun
    exact ⟨rfl, List.Subset.refl _⟩
  | cons d desired ih =>
    rw [createImages, bind_of_ok (insertImage_run _ _ _ _ _ _)] at hrun
    obtain ⟨hlinked, hsub⟩ := ih hrun
    constructor
    · refine ⟨_, hsub (mem_imagesOf.mpr ⟨List.mem_append_right _ (List.mem_singleton.mpr rfl),
        rfl⟩), rfl, hlinked⟩
    · intro image himage
      obtain ⟨hmem, hown⟩ := mem_imagesOf.mp himage
      exact hsub (mem_imagesOf.mpr ⟨List.mem_append_left _ hmem, hown⟩)

theorem reuseImages_linked {existing : List DocumentImage} {desired : List Desired}
    (h : ∀ d ∈ desired, ∃ image ∈ existing, env.sha256 image.data = env.sha256 d.blob)
    (content : Str) :
    Linked env existing desired content (reuseImages env existing desired content) := by
  rw [reuseImages]
  induction desired generalizing content with
  | nil => rfl
  | cons d desired ih =>
    obtain ⟨image, himage, hdigest⟩ := h d List.mem_cons_self
    have hfound : (existing.reverse.find? fun i =>
        env.sha256 i.data = env.sha256 d.blob).isSome = true := by
      rw [List.find?_isSome]
      exact ⟨image, List.mem_reverse.mpr himage, decide_eq_true hdigest⟩
    obtain ⟨i, hi⟩ := Option.isSome_iff_exists.mp hfound
    have hurl : urlByDigest env existing (env.sha256 d.blob) = serveUrl i.id := by
      rw [urlByDigest, hi]
    have hsame : env.sha256 i.data = env.sha256 d.blob := by simpa using List.find?_some hi
    refine ⟨i, List.mem_reverse.mp (List.mem_of_find?_eq_some hi), hsame, ?_⟩
    rw [List.foldl_cons, hurl]
    exact ih (fun d' hd' => h d' (List.mem_cons_of_mem _ hd')) _

theorem importImages_reused {pk : ℕ} {actor : Option Actor} {desired : List Desired}
    {content : Str} {w : World} (hsame : sameImages env (imagesOf w.db pk) desired = true) :
    importImages env pk actor desired content w =
      .ok (reuseImages env (imagesOf w.db pk) desired content) w := by
  simp only [importImages, getDb, bind, EStateM.bind, get, getThe, MonadStateOf.get,
    get_eq_ok, pure, EStateM.pure, hsame, if_true]

theorem importImages_created {pk : ℕ} {actor : Option Actor} {desired : List Desired}
    {content : Str} {w : World} (hsame : ¬sameImages env (imagesOf w.db pk) desired = true) :
    importImages env pk actor desired content w =
      createImages env pk actor desired content { w with db := deleteImages pk w.db } := by
  simp only [importImages, getDb, bind, EStateM.bind, get, getThe, MonadStateOf.get,
    get_eq_ok, pure, EStateM.pure, hsame]
  rfl

theorem importImages_linked {pk : ℕ} {actor : Option Actor} {desired : List Desired}
    {content text : Str} {w w' : World}
    (hrun : importImages env pk actor desired content w = .ok text w') :
    Linked env (imagesOf w'.db pk) desired content text := by
  by_cases hsame : sameImages env (imagesOf w.db pk) desired = true
  · rw [importImages_reused hsame] at hrun
    obtain ⟨rfl, rfl⟩ := EStateM.Result.ok.inj hrun
    apply reuseImages_linked
    intro d hd
    obtain ⟨image, himage, hdigest, -⟩ := exists_of_sameImages hsame hd
    exact ⟨image, himage, hdigest⟩
  · rw [importImages_created hsame] at hrun
    exact (createImages_linked hrun).1

theorem readImages_pictures {entries : List (Str × Blob)} {dir : Str} {specs : List ImageSpec}
    {desired : List Desired} {w w' : World}
    (hrun : readImages entries dir specs w = .ok desired w') :
    List.Forall₂ (Pictures entries dir) specs desired ∧ w = w' := by
  induction specs generalizing desired w' with
  | nil =>
    obtain ⟨rfl, rfl⟩ := EStateM.Result.ok.inj hrun
    exact ⟨.nil, rfl⟩
  | cons spec specs ih =>
    rw [readImages] at hrun
    cases hread : zipRead entries (if dir = [] then spec.ref else posixJoin dir spec.ref) with
    | none =>
      rw [hread] at hrun
      cases hrun
    | some blob =>
      rw [hread] at hrun
      simp only at hrun
      cases hrest : readImages entries dir specs w with
      | error e w₁ =>
        rw [bind_of_error hrest] at hrun
        cases hrun
      | ok rest w₁ =>
        obtain ⟨hpictures, rfl⟩ := ih hrest
        rw [bind_of_ok hrest] at hrun
        obtain ⟨rfl, rfl⟩ := EStateM.Result.ok.inj hrun
        exact ⟨.cons ⟨rfl, hread⟩ hpictures, rfl⟩

/-! ### The other documents -/

/-- What the import of one document leaves of the others. -/
structure Elsewhere (pk : ℕ) (w w' : World) : Prop where
  others : ∀ doc ∈ w.db.documents, doc.id ≠ pk → doc ∈ w'.db.documents
  versions : w.db.versions <+: w'.db.versions
  disk : w.disk <+: w'.disk
  images : ∀ n, n ≠ pk → imagesOf w'.db n = imagesOf w.db n

/-- What an import says in a document's row. -/
def card (doc : Document) : (ℕ × Option ℕ × Option Str) × Str × Str × Bool :=
  (keyed doc, doc.title, doc.source, doc.isArchived)

/-- The same, by a step that leaves the row as the import has set it. -/
structure Beside (pk : ℕ) (w w' : World) : Prop extends Elsewhere pk w w' where
  cards : w'.db.documents.map card = w.db.documents.map card

theorem Elsewhere.refl (pk : ℕ) (w : World) : Elsewhere pk w w where
  others _ h _ := h
  versions := List.prefix_rfl
  disk := List.prefix_rfl
  images _ _ := rfl

theorem Elsewhere.trans {pk : ℕ} {w w' w'' : World} (h : Elsewhere pk w w')
    (h' : Elsewhere pk w' w'') : Elsewhere pk w w'' where
  others doc hdoc hne := h'.others doc (h.others doc hdoc hne) hne
  versions := h.versions.trans h'.versions
  disk := h.disk.trans h'.disk
  images n hn := (h'.images n hn).trans (h.images n hn)

theorem Beside.refl (pk : ℕ) (w : World) : Beside pk w w where
  toElsewhere := Elsewhere.refl pk w
  cards := rfl

theorem Beside.trans {pk : ℕ} {w w' w'' : World} (h : Beside pk w w') (h' : Beside pk w' w'') :
    Beside pk w w'' where
  toElsewhere := h.toElsewhere.trans h'.toElsewhere
  cards := h'.cards.trans h.cards

section Steps

variable {w w' : World} {pk : ℕ} {doc : Document}

/-- A row of the earlier state under the same card. -/
theorem Beside.exists_before (h : Beside pk w w') {doc' : Document}
    (hdoc' : doc' ∈ w'.db.documents) : ∃ doc ∈ w.db.documents, card doc = card doc' := by
  have hcard := List.mem_map_of_mem (f := card) hdoc'
  rw [h.cards] at hcard
  exact List.mem_map.mp hcard

/-- A row of the later state under the same card. -/
theorem Beside.exists_after (h : Beside pk w w') (hdoc : doc ∈ w.db.documents) :
    ∃ doc' ∈ w'.db.documents, card doc' = card doc := by
  have hcard := List.mem_map_of_mem (f := card) hdoc
  rw [← h.cards] at hcard
  exact List.mem_map.mp hcard

theorem readHead_elsewhere (hw : Tidy w) (hdoc : doc ∈ w.db.documents) (hkey : doc.key ≠ none)
    (h : Elsewhere pk w w') : w'.readHead doc = w.readHead doc := by
  rcases hw.heads.heads doc hdoc hkey with ⟨v, hv, hpoints, -, -⟩ | ⟨-, hnone, -⟩
  · have hget := Table.get_of_mem hw.heads.versions hv
    obtain ⟨rest, hrest⟩ := h.versions
    have hget' : Table.get DocumentVersion.id w'.db.versions v.id = some v := by
      rw [← hrest, Table.get, List.find?_append]
      rw [Table.get] at hget
      rw [hget, Option.some_or]
    have hhead : headVersion w.db doc = some v := by
      rw [headVersion, hpoints, Option.bind_some, hget]
    have hhead' : headVersion w'.db doc = some v := by
      rw [headVersion, hpoints, Option.bind_some, hget']
    rw [World.readHead, World.readHead, hhead, hhead']
    exact fileText_of_grown h.disk (hw.stored v hv)
  · rw [World.readHead, World.readHead, headVersion_of_none hnone, headVersion_of_none hnone]

/-- The others are told as before. -/
theorem Told.elsewhere {entries : List (Str × Blob)} {spec : DocumentSpec}
    (h : Told env entries w spec doc) (hw : Tidy w) (hdoc : doc ∈ w.db.documents)
    (hkey : doc.key ≠ none) (hne : doc.id ≠ pk) (hrest : Elsewhere pk w w') :
    Told env entries w' spec doc where
  title := h.title
  content := by
    obtain ⟨text, desired, hread, hpictures, hlinked⟩ := h.content
    refine ⟨text, desired, hread, hpictures, ?_⟩
    rw [hrest.images doc.id hne, readHead_elsewhere hw hdoc hkey hrest]
    exact hlinked

theorem beside_deleteImages (pk : ℕ) (w : World) :
    Beside pk w { w with db := deleteImages pk w.db } where
  toElsewhere :=
    { Elsewhere.refl pk w with
      images := by
        intro n hn
        have hfilter : (deleteImages pk w.db).images.filter (fun image => image.document = n) =
            w.db.images.filter fun image => image.document = n := by
          rw [deleteImages, List.filter_filter]
          apply List.filter_congr
          intro image _
          by_cases hown : image.document = n
          · simp [hown, hn]
          · simp [hown]
        exact congrArg (List.insertionSort _) hfilter }
  cards := rfl

theorem createImages_beside {actor : Option Actor} {desired : List Desired} {content text : Str}
    (hrun : createImages env pk actor desired content w = .ok text w') : Beside pk w w' := by
  induction desired generalizing content w with
  | nil =>
    obtain ⟨-, rfl⟩ := EStateM.Result.ok.inj hrun
    exact Beside.refl pk w
  | cons d desired ih =>
    rw [createImages, bind_of_ok (insertImage_run _ _ _ _ _ _)] at hrun
    refine Beside.trans ?_ (ih hrun)
    refine { Elsewhere.refl pk w with images := ?_, cards := rfl }
    intro n hn
    have hfilter : ∀ (images : List DocumentImage) (image : DocumentImage), image.document = pk →
        (images ++ [image]).filter (fun i => i.document = n) =
          images.filter fun i => i.document = n := by
      intro images image hown
      have hne : ¬image.document = n := fun heq => hn (heq.symm.trans hown)
      simp [hne]
    exact congrArg (List.insertionSort _) (hfilter _ _ rfl)

theorem importImages_beside {actor : Option Actor} {desired : List Desired} {content text : Str}
    (hrun : importImages env pk actor desired content w = .ok text w') : Beside pk w w' := by
  by_cases hsame : sameImages env (imagesOf w.db pk) desired = true
  · rw [importImages_reused hsame] at hrun
    obtain ⟨-, rfl⟩ := EStateM.Result.ok.inj hrun
    exact Beside.refl pk w
  · rw [importImages_created hsame] at hrun
    exact (beside_deleteImages pk w).trans (createImages_beside hrun)

theorem beside_withVersion (text description : Str) (origin : Origin) :
    Beside doc.id w (w.withVersion env doc text description origin) where
  others d hd hne := by
    rw [withVersion_documents]
    exact List.mem_map.mpr ⟨d, hd, if_neg hne⟩
  versions := List.prefix_append _ _
  disk := withVersion_grown
  images _ _ := rfl
  cards := by
    rw [withVersion_documents, Table.alter, List.map_map]
    apply List.map_congr_left
    intro d _
    by_cases hpk : d.id = doc.id
    · rw [Function.comp_apply, if_pos hpk]
      rfl
    · rw [Function.comp_apply, if_neg hpk]

/-- After it the head has the text. -/
theorem importContent_reads {args : Import} {text : Str} {changed : Bool} (hw : Tidy w)
    (hdoc : doc ∈ w.db.documents)
    (hrun : importContent env doc.id args text w = .ok changed w') :
    Beside doc.id w w' ∧ imagesOf w'.db doc.id = imagesOf w.db doc.id ∧
      ∃ doc' ∈ w'.db.documents, card doc' = card doc ∧ w'.readHead doc' = text := by
  have hget := Table.get_of_mem hw.heads.documents hdoc
  have heq : importContent env doc.id args text w =
      (if text ≠ w.readHead doc then do
          writeVersion env doc.id (Text.ofStr text) .newVersion [] args.origin true
          return true
        else return false : Py Bool) w := by
    rw [importContent, bind_of_ok (loadDocument_some hget)]
    rfl
  rw [heq] at hrun
  by_cases hdiffer : text ≠ w.readHead doc
  · rw [if_pos hdiffer] at hrun
    obtain ⟨⟨⟩, w₁, hwrite, hrun⟩ := exists_of_bind_eq_ok hrun
    obtain ⟨-, rfl⟩ := EStateM.Result.ok.inj hrun
    have hallowed : checkWritable w.db doc args.origin.actor true = .ok () := by
      rw [checkWritable_trusted (.inr rfl), if_neg (by simp)]
    have htext : encode (WriteMode.newVersion.text (w.readHead doc) (Text.ofStr text)) = some text :=
      encode_ofStr text
    cases hdup : w.db.versions.any fun v =>
        v.document = doc.id && v.version = nextVersionNumber w.db doc with
    | true =>
      have hfile : mdFile (WriteMode.newVersion.text (w.readHead doc) (Text.ofStr text)) w =
          .ok text w := by
        simp only [mdFile, htext]
        rfl
      rw [writeVersion_allowed hget hallowed, if_neg (by decide), atomic, bind_of_ok hfile,
        createNewVersion_some hget, hdup, if_pos rfl] at hwrite
      cases hwrite
    | false =>
      rw [writeVersion_snapshot hget hallowed rfl htext hdup] at hwrite
      obtain ⟨-, rfl⟩ := EStateM.Result.ok.inj hwrite
      refine ⟨beside_withVersion _ _ _, rfl, _, ?_, ?_, readHead_withVersion env hw text [] args.origin⟩
      · rw [withVersion_documents]
        exact List.mem_map.mpr ⟨doc, hdoc, if_pos rfl⟩
      · rfl
  · rw [if_neg hdiffer] at hrun
    obtain ⟨-, rfl⟩ := EStateM.Result.ok.inj hrun
    exact ⟨Beside.refl _ _, rfl, doc, hdoc, rfl, (not_not.mp hdiffer).symm⟩

end Steps

/-! ### The row of a spec -/

section Upsert

variable {w w' : World} {doc : Document} {rb pk : ℕ} {sec : Option ℕ} {args : Import}
  {spec : DocumentSpec}

theorem card_withSlug (env : Env) (doc : Document) : card (doc.withSlug env) = card doc := by
  rw [Document.withSlug]
  by_cases hslug : doc.slug = []
  · rw [if_pos hslug]
    rfl
  · rw [if_neg hslug]

/-- The row says what the import has said. -/
structure Row (rb : ℕ) (source : Str) (spec : DocumentSpec) (doc : Document) : Prop where
  runbook : doc.runbook = some rb
  key : doc.key = some spec.key
  source : doc.source = source
  title : ∀ title, spec.title = some title → doc.title = title

theorem Row.of_card {source : Str} {doc' : Document} (h : Row rb source spec doc)
    (hcard : card doc' = card doc) : Row rb source spec doc' := by
  simp only [card, keyed, Prod.mk.injEq] at hcard
  obtain ⟨⟨-, hrb, hkey⟩, htitle, hsource, -⟩ := hcard
  exact ⟨hrb.trans h.runbook, hkey.trans h.key, hsource.trans h.source,
    fun title ht => htitle.trans (h.title title ht)⟩

/-- What the upsert of a spec makes of the documents. -/
structure Upserted (rb : ℕ) (source : Str) (spec : DocumentSpec) (pk : ℕ) (w w' : World) :
    Prop extends Elsewhere pk w w' where
  row : ∃ doc ∈ w'.db.documents, doc.id = pk ∧ Row rb source spec doc
  kept : ∀ d ∈ w.db.documents, ∃ d' ∈ w'.db.documents, keyed d' = keyed d
  archived : ∀ d' ∈ w'.db.documents,
    (∃ d ∈ w.db.documents, keyed d = keyed d' ∧ d.isArchived = d'.isArchived) ∨
      (d'.isArchived = false ∧ d'.runbook = some rb ∧ d'.key = some spec.key ∧
        findDocument w.db rb spec.key = none)

theorem refreshDocument_changed (h : spec.refresh sec args doc ≠ doc) :
    refreshDocument env sec args spec doc w = .ok ()
      { w with
        db := { w.db with
          documents := Table.alter Document.id doc.id (fun d =>
            { (spec.refresh sec args d).withSlug env with updatedAt := w.now }) w.db.documents }
        now := w.now + 1 } := by
  rw [refreshDocument, if_pos h]
  rfl

theorem refreshDocument_same (h : spec.refresh sec args doc = doc) :
    refreshDocument env sec args spec doc w = .ok () w := by
  rw [refreshDocument, if_neg (not_not.mpr h)]
  rfl

theorem row_refresh (hrb : doc.runbook = some rb) (hkey : doc.key = some spec.key) :
    Row rb args.source spec (spec.refresh sec args doc) where
  runbook := hrb
  key := hkey
  source := rfl
  title title ht := by
    rw [DocumentSpec.refresh, ht]
    rfl

theorem upsertDocument_upserted {isNew changed : Bool}
    (hrun : upsertDocument env rb sec args spec w = .ok (pk, isNew, changed) w') :
    Upserted rb args.source spec pk w w' := by
  cases hfind : findDocument w.db rb spec.key with
  | none =>
    rw [upsertDocument_none hfind] at hrun
    obtain ⟨n, w₁, hinsert, hrun⟩ := exists_of_bind_eq_ok hrun
    obtain ⟨hpk, rfl⟩ := EStateM.Result.ok.inj hrun
    obtain rfl : n = pk := congrArg Prod.fst hpk
    rw [insertDocument_run] at hinsert
    have hcard := card_withSlug env
      { id := w.db.nextDocument, runbook := some rb, key := some spec.key, sec := sec,
        title := spec.title.getD spec.key, description := spec.description.getD [],
        docType := spec.docType.getD [], isGenerated := true, source := args.source,
        locked := args.locked, via := "import".toList,
        createdBy := args.actor.bind Actor.id, updatedAt := w.now }
    split at hinsert
    · cases hinsert
    · obtain ⟨rfl, rfl⟩ := EStateM.Result.ok.inj hinsert
      refine
        { others := fun d hd _ => List.mem_append_left _ hd
          versions := List.prefix_rfl
          disk := List.prefix_rfl
          images := fun _ _ => rfl
          row := ⟨_, List.mem_append_right _ (List.mem_singleton.mpr rfl), rfl, ?_⟩
          kept := fun d hd => ⟨d, List.mem_append_left _ hd, rfl⟩
          archived := ?_ }
      · refine Row.of_card ⟨rfl, rfl, rfl, ?_⟩ hcard
        intro title ht
        rw [ht]
        rfl
      · intro d' hd'
        rcases List.mem_append.mp hd' with hd' | hd'
        · exact .inl ⟨d', hd', rfl, rfl⟩
        · obtain rfl := List.mem_singleton.mp hd'
          simp only [card, keyed, Prod.mk.injEq] at hcard
          exact .inr ⟨hcard.2.2.2, hcard.1.2.1, hcard.1.2.2, hfind⟩
  | some doc =>
    rw [upsertDocument_some hfind] at hrun
    obtain ⟨⟨⟩, w₁, hrefresh, hrun⟩ := exists_of_bind_eq_ok hrun
    obtain ⟨hpk, rfl⟩ := EStateM.Result.ok.inj hrun
    obtain rfl : doc.id = pk := congrArg Prod.fst hpk
    have hdoc : doc ∈ w.db.documents := List.mem_of_find?_eq_some hfind
    obtain ⟨hrb, hkey⟩ := key_of_findDocument hfind
    by_cases hsame : spec.refresh sec args doc = doc
    · rw [refreshDocument_same hsame] at hrefresh
      obtain ⟨-, rfl⟩ := EStateM.Result.ok.inj hrefresh
      exact
        { Elsewhere.refl doc.id w with
          row := ⟨doc, hdoc, rfl, hsame ▸ row_refresh hrb hkey⟩
          kept := fun d hd => ⟨d, hd, rfl⟩
          archived := fun d hd => .inl ⟨d, hd, rfl, rfl⟩ }
    · rw [refreshDocument_changed hsame] at hrefresh
      obtain ⟨-, rfl⟩ := EStateM.Result.ok.inj hrefresh
      have hcard : ∀ d : Document,
          card { (spec.refresh sec args d).withSlug env with updatedAt := w.now } =
            card (spec.refresh sec args d) := fun d => card_withSlug env _
      have hkeyed : ∀ d : Document,
          keyed { (spec.refresh sec args d).withSlug env with updatedAt := w.now } = keyed d :=
        fun d => congrArg Prod.fst (hcard d)
      refine
        { others := ?_
          versions := List.prefix_rfl
          disk := List.prefix_rfl
          images := fun _ _ => rfl
          row := ⟨_, List.mem_map.mpr ⟨doc, hdoc, if_pos rfl⟩, ?_,
            (row_refresh hrb hkey).of_card (hcard doc)⟩
          kept := ?_
          archived := ?_ }
      · intro d hd hne
        exact List.mem_map.mpr ⟨d, hd, if_neg hne⟩
      · exact congrArg Prod.fst (hkeyed doc)
      · intro d hd
        refine ⟨_, List.mem_map_of_mem hd, ?_⟩
        by_cases hpk : d.id = doc.id
        · rw [if_pos hpk, hkeyed]
        · rw [if_neg hpk]
      · intro d' hd'
        obtain ⟨d, hd, rfl⟩ := Table.mem_alter hd'
        refine .inl ⟨d, hd, ?_⟩
        by_cases hpk : d.id = doc.id
        · rw [if_pos hpk, hkeyed]
          exact ⟨rfl, (congrArg (fun c => c.2.2.2) (hcard d)).symm⟩
        · rw [if_neg hpk]
          exact ⟨rfl, rfl⟩

end Upsert

/-! ### The loop -/

section Loop

variable {w w' : World} {rb : ℕ} {source : Str} {shelf : Str → Prop} {args : Import}
  {entries : List (Str × Blob)} {seen : List DocumentSpec} {spec : DocumentSpec}

/-- While a bundle is imported the keys of the runbook's archived documents stay what they were,
and what the bundle has said so far is told. -/
structure Imported (env : Env) (entries : List (Str × Blob)) (rb : ℕ) (source : Str)
    (shelf : Str → Prop) (seen : List DocumentSpec) (w : World) : Prop where
  tidy : Tidy w
  apart : Apart w
  shelved : ∀ key, shelf key → Held w.db rb key
  archived : ∀ doc ∈ w.db.documents, ∀ key, doc.runbook = some rb → doc.key = some key →
    (doc.isArchived = true ↔ shelf key)
  told : ∀ key spec, lastSpec seen key = some spec →
    ∃ doc ∈ w.db.documents, Row rb source spec doc ∧ Told env entries w spec doc

theorem held_of_keyed (h : ∀ d ∈ w.db.documents, ∃ d' ∈ w'.db.documents, keyed d' = keyed d)
    {key : Str} (hheld : Held w.db rb key) : Held w'.db rb key := by
  obtain ⟨doc, hdoc, hrb, hkey⟩ := hheld
  obtain ⟨doc', hdoc', heq⟩ := h doc hdoc
  simp only [keyed, Prod.mk.injEq] at heq
  exact ⟨doc', hdoc', heq.2.1.trans hrb, heq.2.2.trans hkey⟩

/-- What the import of one document does: its row is made or brought up to date, and then tells
what the bundle says. -/
structure Stepped (env : Env) (entries : List (Str × Blob)) (rb : ℕ) (source : Str)
    (spec : DocumentSpec) (pk : ℕ) (w w₁ w' : World) : Prop where
  upserted : Upserted rb source spec pk w w₁
  tidy : Tidy w₁
  rest : Beside pk w₁ w'
  told : ∃ row ∈ w'.db.documents, row.id = pk ∧ Row rb source spec row ∧
    Told env entries w' spec row

theorem importDocument_stepped {sections : List (Str × ℕ)} {outcome : Outcome} (hw : Tidy w)
    (hrun : importDocument env rb sections args entries spec w = .ok outcome w') :
    ∃ pk w₁, Stepped env entries rb args.source spec pk w w₁ w' := by
  obtain ⟨content, w₀, hcontent, hrun⟩ := exists_of_bind_eq_ok hrun
  have hread : readContent entries spec.path = .ok content ∧ w = w₀ := by
    cases hcase : readContent entries spec.path with
    | error e =>
      rw [hcase] at hcontent
      cases hcontent
    | ok text =>
      rw [hcase] at hcontent
      obtain ⟨rfl, rfl⟩ := EStateM.Result.ok.inj hcontent
      exact ⟨rfl, rfl⟩
  obtain ⟨hread, rfl⟩ := hread
  obtain ⟨⟨pk, isNew, changed⟩, w₁, hupsert, hrun⟩ := exists_of_bind_eq_ok hrun
  obtain ⟨desired, w₂, himages, hrun⟩ := exists_of_bind_eq_ok hrun
  obtain ⟨hpictures, rfl⟩ := readImages_pictures himages
  obtain ⟨text, w₃, htext, hrun⟩ := exists_of_bind_eq_ok hrun
  obtain ⟨written, w₄, hwrite, hrun⟩ := exists_of_bind_eq_ok hrun
  obtain ⟨-, rfl⟩ := EStateM.Result.ok.inj hrun
  have hup := upsertDocument_upserted hupsert
  have hbeside := importImages_beside htext
  have hlinked := importImages_linked htext
  have htidy₁ : Tidy w₁ := by
    have hmoves := (tidies_stable env).toAdmits.upsertDocument rb
      (spec.sec.bind fun slug => sections.lookup slug) args spec w
    rw [hupsert] at hmoves
    exact hmoves.tidy hw
  have htidy₃ : Tidy w₃ := by
    have hmoves := (tidies_stable env).toAdmits.aside
      (x := importImages env pk args.actor desired content) (aside_importImages _ _ _ _) w₁
    rw [htext] at hmoves
    exact hmoves.tidy htidy₁
  obtain ⟨row, hrow, rfl, hsays⟩ := hup.row
  obtain ⟨row₃, hrow₃, hcard₃⟩ := hbeside.exists_after hrow
  have hid₃ : row₃.id = row.id := congrArg (fun c => c.1.1) hcard₃
  rw [← hid₃] at hwrite
  obtain ⟨hlast, hown, row₄, hrow₄, hcard₄, hhead⟩ := importContent_reads htidy₃ hrow₃ hwrite
  rw [hid₃] at hlast hown
  have hid₄ : row₄.id = row.id := congrArg (fun c => c.1.1) (hcard₄.trans hcard₃)
  have hsays₄ := hsays.of_card (hcard₄.trans hcard₃)
  refine ⟨row.id, w₁, hup, htidy₁, hbeside.trans hlast, row₄, hrow₄, hid₄, hsays₄, hsays₄.title,
    content, desired, hread, hpictures, ?_⟩
  rw [hid₄, hown, hhead]
  exact hlinked

section Step

variable {pk : ℕ} {w₁ : World}

theorem Stepped.held (h : Stepped env entries rb source spec pk w w₁ w') {key : Str}
    (hheld : Held w.db rb key) : Held w'.db rb key := by
  refine held_of_keyed ?_ (held_of_keyed h.upserted.kept hheld)
  intro d hd
  obtain ⟨d', hd', heq⟩ := h.rest.exists_after hd
  exact ⟨d', hd', congrArg Prod.fst heq⟩

/-- No document goes into the archive or comes out of it. -/
theorem Stepped.archived (h : Stepped env entries rb source spec pk w w₁ w')
    (hw : Imported env entries rb source shelf seen w) {doc : Document}
    (hdoc : doc ∈ w'.db.documents) {key : Str} (hrb : doc.runbook = some rb)
    (hkey : doc.key = some key) : doc.isArchived = true ↔ shelf key := by
  obtain ⟨d, hd, heq⟩ := h.rest.exists_before hdoc
  simp only [card, keyed, Prod.mk.injEq] at heq
  obtain ⟨⟨-, hrb', hkey'⟩, -, -, harchived⟩ := heq
  rw [← harchived]
  rcases h.upserted.archived d hd with ⟨e, he, hkeyed, hflag⟩ | ⟨hlive, -, hnew, hnone⟩
  · simp only [keyed, Prod.mk.injEq] at hkeyed
    rw [← hflag]
    exact hw.archived e he key (hkeyed.2.1.trans (hrb'.trans hrb))
      (hkeyed.2.2.trans (hkey'.trans hkey))
  · have hsame : spec.key = key := Option.some.inj (hnew.symm.trans (hkey'.trans hkey))
    have hnot : ¬shelf key := by
      intro hshelf
      have hheld := (held_iff w.db rb key).mp (hw.shelved key hshelf)
      rw [← hsame, hnone] at hheld
      cases hheld
    rw [hlive]
    exact ⟨fun hfalse => absurd hfalse Bool.false_ne_true, fun hshelf => absurd hshelf hnot⟩

/-- What was told of another document is told of it still. -/
theorem Stepped.told_other (h : Stepped env entries rb source spec pk w w₁ w') (hw : Tidy w)
    {doc : Document} {s : DocumentSpec} (hdoc : doc ∈ w.db.documents) (hrow : Row rb source s doc)
    (htold : Told env entries w s doc) (hkey : s.key ≠ spec.key) :
    doc ∈ w'.db.documents ∧ Told env entries w' s doc := by
  obtain ⟨row, hrow', rfl, hsays⟩ := h.upserted.row
  have hne : doc.id ≠ row.id := by
    intro heq
    obtain ⟨d, hd, hkeyed⟩ := h.upserted.kept doc hdoc
    simp only [keyed, Prod.mk.injEq] at hkeyed
    have hsame : d = row := h.tidy.heads.documents.eq_of_key hd hrow' (hkeyed.1.trans heq)
    have hkeys : some s.key = some spec.key := by
      rw [← hrow.key, ← hkeyed.2.2, hsame, hsays.key]
    exact hkey (Option.some.inj hkeys)
  have helsewhere := h.upserted.toElsewhere.trans h.rest.toElsewhere
  have hsome : doc.key ≠ none := by
    rw [hrow.key]
    exact Option.some_ne_none _
  exact ⟨helsewhere.others doc hdoc hne, htold.elsewhere hw hdoc hsome hne helsewhere⟩

end Step

/-- One document of the manifest. -/
theorem importDocument_imported {sections : List (Str × ℕ)} {outcome : Outcome}
    (h : Imported env entries rb args.source shelf seen w)
    (hrun : importDocument env rb sections args entries spec w = .ok outcome w') :
    Imported env entries rb args.source shelf (seen ++ [spec]) w' := by
  have htidy := (tidies_stable env).toAdmits.importDocument rb sections args entries spec w
  have hapart := (apart_stable env).toAdmits.importDocument rb sections args entries spec w
  rw [hrun] at htidy hapart
  obtain ⟨pk, w₁, hstep⟩ := importDocument_stepped h.tidy hrun
  refine
    { tidy := htidy.tidy h.tidy
      apart := hapart h.apart
      shelved := fun key hkey => hstep.held (h.shelved key hkey)
      archived := fun doc hdoc key => hstep.archived h hdoc
      told := ?_ }
  intro key s hs
  rw [lastSpec_append] at hs
  by_cases hkey : spec.key = key
  · rw [if_pos hkey] at hs
    obtain rfl := Option.some.inj hs
    obtain ⟨row, hrow, -, htold⟩ := hstep.told
    exact ⟨row, hrow, htold⟩
  · rw [if_neg hkey] at hs
    obtain ⟨doc, hdoc, hrow, htold⟩ := h.told key s hs
    have hother : s.key ≠ spec.key := fun heq => hkey (heq.symm.trans (mem_of_lastSpec hs).2)
    obtain ⟨hdoc', htold'⟩ := hstep.told_other h.tidy hdoc hrow htold hother
    exact ⟨doc, hdoc', hrow, htold'⟩

theorem importDocuments_imported {sections : List (Str × ℕ)} {specs : List DocumentSpec}
    {outcomes : List Outcome} (h : Imported env entries rb args.source shelf seen w)
    (hrun : importDocuments env rb sections args entries specs w = .ok outcomes w') :
    Imported env entries rb args.source shelf (seen ++ specs) w' := by
  induction specs generalizing seen outcomes w with
  | nil =>
    obtain ⟨-, rfl⟩ := EStateM.Result.ok.inj hrun
    rw [List.append_nil]
    exact h
  | cons spec specs ih =>
    obtain ⟨outcome, w₁, hfirst, hrun⟩ := exists_of_bind_eq_ok hrun
    obtain ⟨rest, w₁, hrest, hrun⟩ := exists_of_bind_eq_ok hrun
    obtain ⟨-, rfl⟩ := EStateM.Result.ok.inj hrun
    have hfinal := ih (importDocument_imported h hfirst) hrest
    rwa [List.append_assoc] at hfinal

end Loop

end CwStation.Documents
