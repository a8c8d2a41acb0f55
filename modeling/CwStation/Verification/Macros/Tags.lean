import CwStation.Verification.Macros.Bank

/-! # What a page takes a tag for

The context of a page is only ever layered upon: a name that has once been a tag stays one, and
a name that never was is looked up among what every object inherits. -/

namespace CwStation.Macros

variable {u : Unicode} {upper : Str → Str} {station : Station} {bank : Bank}

/-- What a placeholder stands for: the value of the station, or of the tag. -/
def resolve (station : Station) (bank : Bank) (key : Str) : Option Str :=
  if key ∈ reserved then (station.get key).filter (· ≠ [])
  else (bank.vars.find? fun var => var.name = key).map CWVariable.value

/-- The name of a tag. -/
def Bank.Has (bank : Bank) (key : Str) : Prop := key ∈ bank.vars.map CWVariable.name

instance (key : Str) : Decidable (bank.Has key) := inferInstanceAs (Decidable (_ ∈ _))

theorem Bank.Good.find {var : CWVariable} (hg : bank.Good) (hvar : var ∈ bank.vars) :
    (bank.vars.find? fun v => v.name = var.name) = some var := by
  have hsome : (bank.vars.find? fun v => v.name = var.name).isSome := by
    rw [List.find?_isSome]
    exact ⟨var, hvar, by simp⟩
  obtain ⟨other, hfind⟩ := Option.isSome_iff_exists.mp hsome
  have hname : other.name = var.name := by simpa using List.find?_some hfind
  rw [hfind, List.inj_on_of_nodup_map hg.names (List.mem_of_find?_eq_some hfind) hvar hname]

/-! ## Layering -/

theorem applyVars_of_reserved {key : Str} (h : key ∈ reserved) (context : Str → Option Str)
    (vars : List CWVariable) : applyVars context vars key = context key := by
  induction vars generalizing context with
  | nil => rfl
  | cons var vars ih =>
    rw [applyVars, List.foldl_cons]
    refine (ih _).trans ?_
    by_cases hname : var.name ∈ reserved
    · rw [if_pos hname]
    · rw [if_neg hname]
      refine if_neg fun heq => ?_
      rw [heq] at h
      exact hname h

theorem applyVars_of_notMem {key : Str} {vars : List CWVariable}
    (h : key ∉ vars.map CWVariable.name) (context : Str → Option Str) :
    applyVars context vars key = context key := by
  induction vars generalizing context with
  | nil => rfl
  | cons var vars ih =>
    rw [List.map_cons, List.mem_cons, not_or] at h
    rw [applyVars, List.foldl_cons]
    refine (ih h.2 _).trans ?_
    split
    · rfl
    · exact if_neg h.1

theorem applyVars_of_mem {vars : List CWVariable} {var : CWVariable} (hvar : var ∈ vars)
    (hnames : (vars.map CWVariable.name).Nodup) (hfree : var.name ∉ reserved)
    (context : Str → Option Str) : applyVars context vars var.name = some var.value := by
  induction vars generalizing context with
  | nil => cases hvar
  | cons v vars ih =>
    rw [List.map_cons, List.nodup_cons] at hnames
    rw [applyVars, List.foldl_cons]
    rcases List.mem_cons.mp hvar with rfl | hvar
    · refine (applyVars_of_notMem hnames.1 _).trans ?_
      rw [if_neg hfree]
      exact if_pos rfl
    · exact ih hvar hnames.2 _

theorem list_perm (bank : Bank) : bank.list.Perm bank.vars := List.perm_insertionSort Before bank.vars

/-! ## Runs -/

/-- What the context knows of the tags in the banks it has been refreshed with. -/
structure Layered (station : Station) (seen : List Bank) (page : Page) : Prop where
  reserved : ∀ key ∈ reserved, page.context key = station.get key
  never : ∀ key ∉ Macros.reserved, (∀ b ∈ seen, ¬b.Has key) → page.context key = none
  ever : ∀ key ∉ Macros.reserved, (∃ b ∈ seen, b.Has key) → ∃ value ≠ [], page.context key = some value
  now : ∀ b, seen.getLast? = some b → ∀ var ∈ b.vars, page.context var.name = some var.value

theorem Station.get_of_not_reserved {key : Str} (h : key ∉ reserved) : station.get key = none := by
  simp only [reserved, List.mem_cons, List.not_mem_nil, or_false, not_or] at h
  rw [Station.get, if_neg h.1, if_neg h.2.1, if_neg h.2.2]

theorem layered_start : Layered station [] { context := station.get } where
  reserved _ _ := rfl
  never _ hkey _ := Station.get_of_not_reserved hkey
  ever _ _ h := by simp at h
  now _ h := by simp at h

theorem Layered.refresh {seen : List Bank} {page : Page} (h : Layered station seen page)
    (hg : bank.Good) : Layered station (seen ++ [bank]) (page.refreshVars bank.list) := by
  have hnames : (bank.list.map CWVariable.name).Nodup :=
    ((list_perm bank).map _).nodup_iff.mpr hg.names
  have hhas : ∀ key, key ∈ bank.list.map CWVariable.name ↔ bank.Has key := fun key =>
    ((list_perm bank).map _).mem_iff
  have hnow : ∀ var ∈ bank.vars, (page.refreshVars bank.list).context var.name = some var.value :=
    fun var hvar => applyVars_of_mem ((list_perm bank).mem_iff.mpr hvar) hnames (hg.free var hvar) _
  constructor
  · intro key hkey
    exact (applyVars_of_reserved hkey _ _).trans (h.reserved key hkey)
  · intro key hkey hnever
    have hnot : key ∉ bank.list.map CWVariable.name := fun hmem =>
      hnever bank (by simp) ((hhas key).mp hmem)
    refine (applyVars_of_notMem hnot _).trans (h.never key hkey fun b hb => ?_)
    exact hnever b (List.mem_append_left _ hb)
  · rintro key hkey ⟨b, hb, hin⟩
    by_cases hlast : bank.Has key
    · obtain ⟨var, hvar, rfl⟩ := List.mem_map.mp hlast
      exact ⟨var.value, hg.values var hvar, hnow var hvar⟩
    · have hnot : key ∉ bank.list.map CWVariable.name := fun hmem => hlast ((hhas key).mp hmem)
      have hb' : b ∈ seen := by
        rcases List.mem_append.mp hb with hb | hb
        · exact hb
        · rw [List.mem_singleton.mp hb] at hin
          exact absurd hin hlast
      obtain ⟨value, hne, hvalue⟩ := h.ever key hkey ⟨b, hb', hin⟩
      exact ⟨value, hne, (applyVars_of_notMem hnot _).trans hvalue⟩
  · intro b hb var hvar
    rw [List.getLast?_concat, Option.some.injEq] at hb
    subst hb
    exact hnow var hvar

/-- What holds after the banks seen so far holds after further ones. -/
theorem Layered.run {seen : List Bank} {page : Page} (h : Layered station seen page)
    {more : List Bank} (hg : ∀ b ∈ more, b.Good) :
    Layered station (seen ++ more) (more.foldl (fun page b => page.refreshVars b.list) page) := by
  induction more generalizing seen page with
  | nil => rwa [List.append_nil]
  | cons b more ih =>
    have hstep := h.refresh (hg b List.mem_cons_self)
    have hrest := ih hstep fun b' hb' => hg b' (List.mem_cons_of_mem _ hb')
    rwa [List.append_assoc] at hrest

/-! ## What is known -/

/-- The page and the bank agree on a name: it is reserved, or a tag now, or it has not been a
tag since the page was loaded and is not inherited either. -/
def Settled (seen : List Bank) (bank : Bank) (key : Str) : Prop :=
  key ∈ reserved ∨ bank.Has key ∨
    (∀ b ∈ seen, ¬b.Has key) ∧ objectPrototype.lookup key = none

theorem reserved_not_inherited : ∀ key ∈ reserved, objectPrototype.lookup key = none := by
  decide +kernel

theorem known_of_some {page : Page} {key value : Str} (h : page.context key = some value)
    (hne : value ≠ []) : page.known key = some value := by
  rw [Page.known, h]
  exact if_neg hne

theorem known_of_none {page : Page} {key : Str} (h : page.context key = none) :
    page.known key = objectPrototype.lookup key := by
  rw [Page.known, h]

section known

variable {seen : List Bank} {page : Page} (h : Layered station seen page) (hg : bank.Good)
  (hlast : seen.getLast? = some bank)

include h

/-- A name on which they disagree is an unknown placeholder that the page fills in. -/
theorem known_of_not_settled {key : Str} (hkey : ¬Settled seen bank key) :
    (∃ value, page.known key = some value) ∧ resolve station bank key = none := by
  simp only [Settled, not_or, not_and_or] at hkey
  obtain ⟨hres, hgone, hever⟩ := hkey
  have hfind : (bank.vars.find? fun var => var.name = key) = none := by
    rw [List.find?_eq_none]
    intro var hvar hname
    exact hgone (List.mem_map.mpr ⟨var, hvar, by simpa using hname⟩)
  refine ⟨?_, by rw [resolve, if_neg hres, hfind]; rfl⟩
  by_cases hseen : ∃ b ∈ seen, b.Has key
  · obtain ⟨value, hne, hvalue⟩ := h.ever key hres hseen
    exact ⟨value, known_of_some hvalue hne⟩
  · have hnever : ∀ b ∈ seen, ¬b.Has key := fun b hb hin => hseen ⟨b, hb, hin⟩
    rw [known_of_none (h.never key hres hnever)]
    rcases hever with hever | hproto
    · exact absurd hnever hever
    · exact Option.ne_none_iff_exists'.mp hproto

include hg hlast

theorem known_of_settled {key : Str} (hkey : Settled seen bank key) :
    page.known key = resolve station bank key := by
  by_cases hres : key ∈ reserved
  · have hcontext := h.reserved key hres
    rw [resolve, if_pos hres]
    cases hvalue : station.get key with
    | none =>
      rw [hvalue] at hcontext
      exact (known_of_none hcontext).trans (reserved_not_inherited key hres)
    | some value =>
      rw [hvalue] at hcontext
      rw [Page.known, hcontext]
      by_cases hnil : value = []
      · subst hnil
        rfl
      · simp [Option.filter, hnil]
  · rw [resolve, if_neg hres]
    rcases hkey with hkey | hkey | ⟨hnever, hproto⟩
    · exact absurd hkey hres
    · obtain ⟨var, hvar, rfl⟩ := List.mem_map.mp hkey
      rw [hg.find hvar, known_of_some (h.now bank hlast var hvar) (hg.values var hvar)]
      rfl
    · have hgone : ¬bank.Has key := hnever bank (List.mem_of_getLast? hlast)
      have hfind : (bank.vars.find? fun var => var.name = key) = none := by
        rw [List.find?_eq_none]
        intro var hvar hname
        exact hgone (List.mem_map.mpr ⟨var, hvar, by simpa using hname⟩)
      rw [hfind, known_of_none (h.never key hres hnever), hproto]
      rfl

end known

/-! ## Expansion -/

/-- The names of the placeholders in a text. -/
def placeholders (text : Str) : List Str := (pieces 0 text).filterMap fun piece =>
  match piece with
  | .plain _ => none
  | .hole name => some (name.map Char.toLower)

theorem foldl_add_congr {known known' : Str → Option Str} {ps : List Piece}
    (h : ∀ name, .hole name ∈ ps → known (name.map Char.toLower) = known' (name.map Char.toLower))
    (e : Expansion) :
    ps.foldl (Expansion.add upper known) e = ps.foldl (Expansion.add upper known') e := by
  induction ps generalizing e with
  | nil => rfl
  | cons p ps ih =>
    have hstep : Expansion.add upper known e p = Expansion.add upper known' e p := by
      cases p with
      | plain c => rfl
      | hole name => simp only [Expansion.add, h name List.mem_cons_self]
    rw [List.foldl_cons, List.foldl_cons, hstep]
    exact ih (fun name hname => h name (List.mem_cons_of_mem _ hname)) _

/-- Only the placeholders of a text matter. -/
theorem expandWith_congr {known known' : Str → Option Str} {text : Str}
    (h : ∀ key ∈ placeholders text, known key = known' key) :
    expandWith upper known text = expandWith upper known' text := by
  apply foldl_add_congr
  intro name hname
  exact h _ (List.mem_filterMap.mpr ⟨_, hname, rfl⟩)

/-- What may stand between the braces of a placeholder. -/
structure Name where
  chars : Str
  ne : chars ≠ []
  key : ∀ c ∈ chars, isKeyChar c = true

/-- The name a placeholder is looked up by. -/
def Name.toKey (name : Name) : Str := name.chars.map Char.toLower

theorem pieces_drop (s rest : Str) : pieces s.length (s ++ rest) = pieces 0 rest := by
  induction s with
  | nil => cases rest <;> rfl
  | cons c s ih => exact ih

theorem pieces_braced (name : Name) : pieces 0 (braced name.chars) = [.hole name.chars] := by
  have hclose : isKeyChar '\x7d' = false := by decide
  have htake : (name.chars ++ ['\x7d']).takeWhile isKeyChar = name.chars := by
    rw [List.takeWhile_append_of_pos name.key]
    simp [hclose]
  have hdrop : (name.chars ++ ['\x7d']).dropWhile isKeyChar = ['\x7d'] := by
    rw [List.dropWhile_append_of_pos name.key]
    simp [hclose]
  have hfound : placeholder (name.chars ++ ['\x7d']) = some name.chars := by
    simp only [placeholder, htake, hdrop]
    exact if_pos ⟨name.ne, rfl⟩
  have hrest := pieces_drop (name.chars ++ ['\x7d']) []
  rw [List.append_nil, List.length_append, List.length_singleton] at hrest
  change pieces 0 ('\x7b' :: (name.chars ++ ['\x7d'])) = _
  rw [pieces, if_pos rfl, hfound]
  simp only [hrest]
  rfl

/-- The expansion of one placeholder says whether it is known. -/
theorem expandWith_braced (known : Str → Option Str) (name : Name) :
    expandWith upper known (braced name.chars) =
      match known name.toKey with
      | some value => { value := upper value }
      | none => { value := braced name.chars, sel := some (0, units (braced name.chars)) } := by
  rw [expandWith, pieces_braced, List.foldl_cons, List.foldl_nil]
  simp only [Expansion.add, Name.toKey]
  cases known (name.chars.map Char.toLower) with
  | none => simp [units]
  | some value => rfl

/-! ## Pages -/

/-- The bank that a run of requests leaves. -/
def bankAfter (u : Unicode) (bank : Bank) (requests : List VarRequest) : Bank :=
  requests.foldl (Bank.next u) bank

theorem getLast?_banks (bank : Bank) (edits : List VarRequest) :
    (banks u bank edits).getLast? = some (bankAfter u bank edits) := by
  induction edits generalizing bank with
  | nil => rfl
  | cons request edits ih =>
    have hrest := ih (bank.next u request)
    rw [banks, List.getLast?_cons, hrest]
    rfl

theorem Bank.Good.after (hg : bank.Good) (requests : List VarRequest) :
    (bankAfter u bank requests).Good := by
  induction requests generalizing bank with
  | nil => exact hg
  | cons request requests ih => exact ih (hg.next request)

/-- What a page expands a message to is what the bank says exactly for the placeholders that
are settled: the tags of now, the reserved names, and what was never a tag since the page was
loaded and is not inherited. -/
theorem expand_follows_bank_iff (u : Unicode) (upper : Str → Str) (station : Station)
    (before edits : List VarRequest) :
    (∀ name : Name,
      (pageAfter u station (bankAfter u {} before) edits).expand upper (braced name.chars) =
          expandWith upper (resolve station (bankAfter u (bankAfter u {} before) edits))
            (braced name.chars) ↔
        Settled (banks u (bankAfter u {} before) edits)
          (bankAfter u (bankAfter u {} before) edits) name.toKey) ∧
    ∀ text, (∀ key ∈ placeholders text, Settled (banks u (bankAfter u {} before) edits)
        (bankAfter u (bankAfter u {} before) edits) key) →
      (pageAfter u station (bankAfter u {} before) edits).expand upper text =
        expandWith upper (resolve station (bankAfter u (bankAfter u {} before) edits)) text := by
  have hloaded : (bankAfter u {} before).Good := good_empty.after before
  have hlayered := (layered_start : Layered station [] _).run (hloaded.banks (u := u) edits)
  rw [List.nil_append] at hlayered
  have hlast := getLast?_banks (u := u) (bankAfter u {} before) edits
  have hknown {key : Str} := @known_of_settled _ _ _ _ hlayered (hloaded.after edits) hlast key
  constructor
  · intro name
    constructor
    · intro heq
      by_contra hkey
      obtain ⟨⟨value, hvalue⟩, hnone⟩ := known_of_not_settled hlayered hkey
      have hsel := congrArg Expansion.sel heq
      rw [Page.expand, expandWith_braced, expandWith_braced, hnone] at hsel
      simp only [pageAfter, hvalue] at hsel
      cases hsel
    · intro hkey
      rw [Page.expand, expandWith_braced, expandWith_braced, ← hknown hkey]
      rfl
  · intro text hall
    exact expandWith_congr fun key hkey => hknown (hall key hkey)

/-- A tag that has been deleted is still filled in. -/
theorem deleted_tag_expands :
    ¬∀ (u : Unicode) (upper : Str → Str) (station : Station) (before edits : List VarRequest)
      (text : Str), (pageAfter u station (bankAfter u {} before) edits).expand upper text =
        expandWith upper (resolve station (bankAfter u (bankAfter u {} before) edits)) text := by
  intro h
  have hrun := h .ascii id ⟨none, none, none⟩ []
    [{ name := some "rig".toList, value := some "KW4420".toList }, { id := some 1, delete := true }]
    (braced "rig".toList)
  exact absurd hrun (by decide +kernel)

end CwStation.Macros
