import Mathlib.Data.Bool.AllAny
import CwStation.Verification.Adif.Parse

/-! # A written log is read back -/

namespace CwStation.Adif

open Pattern

variable (u : Unicode)

/-! ## Records as dictionaries -/

theorem setField_of_not_mem {name value : Str} {r : Record} (h : name ∉ r.map Prod.fst) :
    setField name value r = r ++ [(name, value)] := by
  induction r with
  | nil => rfl
  | cons f r ih =>
    simp only [List.map_cons, List.mem_cons, not_or] at h
    rw [setField, if_neg (Ne.symm h.1), ih h.2, List.cons_append]

theorem foldl_setField {current fields : Record}
    (h : ((current ++ fields).map Prod.fst).Nodup) :
    fields.foldl (fun r f => setField f.1 f.2 r) current = current ++ fields := by
  induction fields generalizing current with
  | nil => simp
  | cons f fields ih =>
    have hnew : f.1 ∉ current.map Prod.fst := by
      simp only [List.map_append, List.map_cons, List.nodup_append, List.mem_cons] at h
      intro hmem
      exact h.2.2 _ hmem _ (.inl rfl) rfl
    rw [List.foldl_cons, setField_of_not_mem hnew, ih (by simpa using h)]
    simp

/-! ## Positions -/

/-- From `pos` on the text is `rest`. -/
structure At (body : Str) (pos : ℕ) (rest : Str) : Prop where
  drop : body.drop pos = rest
  le : pos ≤ body.length

theorem At.advance {body x rest : Str} {pos : ℕ} (h : At body pos (x ++ rest)) :
    At body (pos + x.length) rest := by
  have hlen := congrArg List.length h.drop
  rw [List.length_drop, List.length_append] at hlen
  have hle := h.le
  refine ⟨?_, by omega⟩
  rw [← List.drop_drop, h.drop, List.drop_left]

/-- A field as the parser gives it back. -/
structure IsField (f : Str × Str) : Prop where
  name_ne_nil : f.1 ≠ []
  isWord : ∀ c ∈ f.1, u.isWord c = true
  lower : u.lower f.1 = f.1

variable {u} {body : Str} (hsize : body.length ≤ maxSize)

include hsize

theorem parseLoop_field {pos fuel : ℕ} {sep rest : Str} {f : Str × Str} (hf : IsField u f)
    (hsep : Plain sep) (h : At body pos (sep ++ adifField f.1 f.2 ++ rest)) (current : Record)
    (records : List Record) :
    parseLoop u body (fuel + 1) pos current records =
      parseLoop u body fuel (pos + (sep ++ adifField f.1 f.2).length) (setField f.1 f.2 current)
        records := by
  have htag : At body pos ((sep ++ tagText f.1 f.2.length) ++ (f.2 ++ rest)) := by
    simpa [adifField_eq] using h
  have hpos : ¬ maxSize < pos := by
    have := h.le
    omega
  have hlen : f.2.length ≤ maxSize := by
    have := congrArg List.length htag.drop
    simp only [List.length_drop, List.length_append] at this
    omega
  have hmark := findMark_field u hsep hf.name_ne_nil hf.isWord
    (by simpa using htag.drop : body.drop pos = sep ++ (tagText f.1 f.2.length ++ (f.2 ++ rest)))
  have hvalue : (body.drop (pos + sep.length + (tagText f.1 f.2.length).length)).take f.2.length =
      f.2 := by
    have := htag.advance.drop
    rw [List.length_append, ← Nat.add_assoc] at this
    rw [this, List.take_left]
  rw [parseLoop, if_neg hpos, hmark]
  simp only [pyInt_decimalText u hlen, Int.toNat_natCast, hvalue, hf.lower]
  congr 1
  simp [adifField_eq]
  omega

theorem parseLoop_eor {pos fuel : ℕ} {sep rest : Str} (hsep : Plain sep)
    (h : At body pos (sep ++ "<EOR>".toList ++ rest)) (current : Record) (records : List Record) :
    parseLoop u body (fuel + 1) pos current records =
      parseLoop u body fuel (pos + (sep ++ "<EOR>".toList).length) [] (push current records) := by
  have hpos : ¬ maxSize < pos := by
    have := h.le
    omega
  have hmark := findMark_eor u hsep
    (by simpa using h.drop : body.drop pos = sep ++ ("<EOR>".toList ++ rest))
  rw [parseLoop, if_neg hpos, hmark]
  simp only [List.length_append, ← Nat.add_assoc]
  rfl

theorem parseLoop_end {pos fuel : ℕ} {rest : Str} (hrest : Plain rest) (h : At body pos rest)
    (current : Record) (records : List Record) :
    parseLoop u body (fuel + 1) pos current records = some (.ok (push current records)) := by
  have hpos : ¬ maxSize < pos := by
    have := h.le
    omega
  have hplain : Plain (body.drop pos) := by
    rw [h.drop]
    exact hrest
  rw [parseLoop, if_neg hpos, findMark_plain u hplain]

/-! ## Records -/

omit hsize in
theorem plain_blank : Plain [' '] := by
  intro c hc
  rw [List.mem_singleton.mp hc]
  decide

omit hsize in
theorem intercalate_eq_flatMap (sep w : Str) (ws : List Str) :
    List.intercalate sep (w :: ws) = w ++ ws.flatMap (sep ++ ·) := by
  induction ws generalizing w with
  | nil => simp [List.intercalate]
  | cons v ws ih =>
    have hstep : List.intercalate sep (w :: v :: ws) = w ++ (sep ++ List.intercalate sep (v :: ws)) := by
      simp [List.intercalate, List.intersperse]
    rw [hstep, ih v]
    simp

/-- The fields of a record behind the first one. -/
def moreFields (fields : Record) : Str := fields.flatMap fun f => ' ' :: adifField f.1 f.2

omit hsize in
theorem recordLine_cons (f : Str × Str) (fields : Record) :
    recordLine (f :: fields) = adifField f.1 f.2 ++ (moreFields fields ++ " <EOR>".toList) := by
  rw [recordLine, List.map_cons, intercalate_eq_flatMap, List.flatMap_map, List.append_assoc]
  rfl

/-- Fields up to the end of their record, one iteration each. -/
theorem parseLoop_fields {fields : Record} (hf : ∀ f ∈ fields, IsField u f) {pos fuel : ℕ}
    {rest : Str} (h : At body pos (moreFields fields ++ " <EOR>".toList ++ rest))
    (current : Record) (records : List Record) :
    parseLoop u body (fuel + 1 + fields.length) pos current records =
      parseLoop u body fuel (pos + (moreFields fields ++ " <EOR>".toList).length) []
        (push (fields.foldl (fun r f => setField f.1 f.2 r) current) records) := by
  induction fields generalizing pos current with
  | nil =>
    have heor : At body pos ([' '] ++ "<EOR>".toList ++ rest) := by simpa [moreFields] using h
    exact parseLoop_eor hsize plain_blank heor current records
  | cons f fields ih =>
    have hsplit : moreFields (f :: fields) = ([' '] ++ adifField f.1 f.2) ++ moreFields fields := by
      simp [moreFields]
    have hfield : At body pos ([' '] ++ adifField f.1 f.2 ++
        (moreFields fields ++ " <EOR>".toList ++ rest)) := by
      simpa [hsplit] using h
    have hstep : parseLoop u body (fuel + 1 + fields.length + 1) pos current records = _ :=
      parseLoop_field hsize (hf f List.mem_cons_self) plain_blank hfield current records
    rw [List.length_cons, ← Nat.add_assoc, hstep,
      ih (fun g hg => hf g (List.mem_cons_of_mem _ hg)) hfield.advance, List.foldl_cons, hsplit]
    congr 1
    simp only [List.length_append]
    omega

/-- A record as it can be written: fields with names of their own. -/
structure IsRecord (u : Unicode) (r : Record) : Prop where
  ne_nil : r ≠ []
  fields : ∀ f ∈ r, IsField u f
  nodup : (r.map Prod.fst).Nodup

theorem parseLoop_record {r : Record} (hr : IsRecord u r) {pos fuel : ℕ} {sep rest : Str}
    (hsep : Plain sep) (h : At body pos (sep ++ recordLine r ++ rest)) (records : List Record) :
    parseLoop u body (fuel + 1 + r.length) pos [] records =
      parseLoop u body fuel (pos + (sep ++ recordLine r).length) [] (records ++ [r]) := by
  cases r with
  | nil => exact absurd rfl hr.ne_nil
  | cons f fields =>
    have hfield : At body pos (sep ++ adifField f.1 f.2 ++
        (moreFields fields ++ " <EOR>".toList ++ rest)) := by
      simpa [recordLine_cons] using h
    have hnew : setField f.1 f.2 [] = [f] := rfl
    have hfold : fields.foldl (fun r f => setField f.1 f.2 r) [f] = f :: fields :=
      @foldl_setField [f] fields hr.nodup
    rw [List.length_cons, ← Nat.add_assoc,
      parseLoop_field hsize (hr.fields f List.mem_cons_self) hsep hfield,
      hnew, parseLoop_fields hsize (fun g hg => hr.fields g (List.mem_cons_of_mem _ hg))
        hfield.advance, hfold, push, if_neg (by simp)]
    congr 1
    simp only [recordLine_cons, List.length_append]
    omega

/-! ## Whole logs -/

/-- The text behind the header. -/
def recordsText (records : List Record) : Str :=
  (records.flatMap fun r => '\n' :: recordLine r) ++ ['\n']

theorem parseLoop_records {records : List Record} (hr : ∀ r ∈ records, IsRecord u r) {pos : ℕ}
    {sep : Str} (hsep : Plain sep) (h : At body pos (sep ++ recordsText records))
    (done : List Record) :
    ∃ fuel, parseLoop u body fuel pos [] done = some (.ok (done ++ records)) := by
  have hline : Plain ['\n'] := by
    intro c hc
    rw [List.mem_singleton.mp hc]
    decide
  induction records generalizing pos sep done with
  | nil =>
    have hplain : Plain (sep ++ recordsText []) := by
      intro c hc
      rcases List.mem_append.mp hc with hc | hc
      · exact hsep c hc
      · exact hline c hc
    refine ⟨1, ?_⟩
    rw [parseLoop_end hsize hplain h]
    simp [push]
  | cons r records ih =>
    have hsplit : At body pos ((sep ++ ['\n']) ++ recordLine r ++ ([] ++ recordsText records)) := by
      simpa [recordsText] using h
    have hsep' : Plain (sep ++ ['\n']) := by
      intro c hc
      rcases List.mem_append.mp hc with hc | hc
      · exact hsep c hc
      · exact hline c hc
    obtain ⟨fuel, hrun⟩ := ih (fun r' hr' => hr r' (List.mem_cons_of_mem _ hr'))
      (by simp [Plain]) hsplit.advance (done ++ [r])
    refine ⟨fuel + 1 + r.length, ?_⟩
    rw [parseLoop_record hsize (hr r List.mem_cons_self) hsep' hsplit, hrun]
    simp

omit hsize

/-- A header that holds no `<eoh>` in any case. -/
def IsHeader (header : Str) : Prop := ¬ "<eoh>".toList <:+: header.map Char.toLower

theorem matchAt_eohRe_header {header front back : Str} (hh : IsHeader header)
    (hcut : header = front ++ back) (prev : Option Char) (rest : Str) :
    matchAt eohRe prev (back ++ '\n' :: rest) = none := by
  rw [matchAt_eq_none]
  intro m hm
  obtain ⟨a, b, c, ha, hb, hc, hs, -⟩ := mem_ways_markerRe hm
  have hlower : ['<', a, b, c, '>'].map Char.toLower = "<eoh>".toList := by
    rcases ha with rfl | rfl <;> rcases hb with rfl | rfl <;> rcases hc with rfl | rfl <;> decide
  have hline : '\n' ∉ ['<', a, b, c, '>'] := by
    rcases ha with rfl | rfl <;> rcases hb with rfl | rfl <;> rcases hc with rfl | rfl <;> decide
  -- a newline cuts the marker, so it lies in the header
  rcases List.append_eq_append_iff.mp (show back ++ '\n' :: rest = ['<', a, b, c, '>'] ++ m.rest from hs)
    with ⟨x, hx, hy⟩ | ⟨x, hx, -⟩
  · cases x with
    | nil =>
      apply hh
      rw [← hlower, hx, List.append_nil, hcut]
      exact ⟨front.map Char.toLower, [], by simp⟩
    | cons d x =>
      obtain rfl : '\n' = d := (List.cons.inj hy).1
      exact hline (by rw [hx]; simp)
  · apply hh
    rw [← hlower, hcut, hx]
    exact ⟨front.map Char.toLower, x.map Char.toLower, by simp⟩

theorem adifFile_eq (header : Str) (records : List Record) :
    adifFile header records =
      (header ++ ['\n']) ++ ("<EOH>".toList ++ ('\n' :: recordsText records)) := by
  rw [adifFile, intercalate_eq_flatMap]
  simp [recordsText, List.flatMap_cons, List.flatMap_map]

theorem bodyOf_adifFile {header : Str} (hh : IsHeader header) (records : List Record) :
    bodyOf (adifFile header records) = '\n' :: recordsText records := by
  have hmatch : ∀ prev rest, matchAt eohRe prev ("<EOH>".toList ++ rest) =
      some ⟨"<EOH>".toList, rest, []⟩ := by
    intro prev rest
    simp [matchAt, eohRe, markerRe, letter, exactly, ways]
  have hskip : ∀ a b, header ++ ['\n'] = a ++ b → b ≠ [] →
      matchAt eohRe (after none a) (b ++ ("<EOH>".toList ++ ('\n' :: recordsText records))) = none := by
    intro a b hab hb
    rcases List.append_eq_append_iff.mp hab with ⟨x, rfl, hx⟩ | ⟨x, hx, rfl⟩
    · -- only the newline can follow
      have hx' : b = ['\n'] := by
        cases x with
        | nil => exact hx.symm
        | cons c x =>
          have hlen := congrArg List.length hx
          have hpos := List.length_pos_iff.mpr hb
          simp only [List.length_append, List.length_cons, List.length_nil] at hlen
          omega
      rw [hx']
      exact matchAt_seq_one (by decide)
    · rw [List.append_assoc]
      exact matchAt_eohRe_header hh hx _ _
  have hsearch : search eohRe none (adifFile header records) =
      some (header ++ ['\n'], ⟨"<EOH>".toList, '\n' :: recordsText records, []⟩) := by
    rw [adifFile_eq, search_append hskip, search_of_matchAt (hmatch _ _)]
    simp
  rw [bodyOf, hsearch]

/-- The records of a written log come back. -/
theorem parseAdif_adifFile (u : Unicode) {header : Str} (hh : IsHeader header)
    {records : List Record} (hr : ∀ r ∈ records, IsRecord u r)
    (hsize : (adifFile header records).length ≤ maxSize) :
    parseAdif u (adifFile header records) = some (.ok records) := by
  have hbody := bodyOf_adifFile hh records
  have hshort : ('\n' :: recordsText records).length ≤ maxSize := by
    rw [adifFile_eq] at hsize
    simp only [List.length_append] at hsize
    omega
  have hline : Plain ['\n'] := by
    intro c hc
    rw [List.mem_singleton.mp hc]
    decide
  obtain ⟨fuel, hrun⟩ := parseLoop_records hshort hr hline ⟨rfl, Nat.zero_le _⟩ []
  obtain ⟨r, hr'⟩ := Option.isSome_iff_exists.mp (parseLoop_ends u ('\n' :: recordsText records))
  have h₁ := parseLoop_mono u hrun (Nat.le_max_left fuel (('\n' :: recordsText records).length + 1))
  have h₂ := parseLoop_mono u hr' (Nat.le_max_right fuel (('\n' :: recordsText records).length + 1))
  rw [parseAdif, hbody, hr', ← h₂, h₁, List.nil_append]

/-- A log of records comes back as it was written. On every text the parser comes to an
end, and it does nothing but collect entries whose markup stands behind the values before
it. -/
theorem adif_records_survive (u : Unicode) :
    (∀ header records, IsHeader header → (∀ r ∈ records, IsRecord u r) →
      (adifFile header records).length ≤ maxSize →
      parseAdif u (adifFile header records) = some (.ok records)) ∧
    ∀ text, (parseAdif u text).isSome = true ∧
      parseAdif u text = outcome ([], []) (entries u text) ∧
      (entries u text).1.Pairwise (fun a b => a.next ≤ b.start) ∧
      ∀ e ∈ (entries u text).1, e.Reads (bodyOf text) := by
  refine ⟨fun header records hh hr hsize => parseAdif_adifFile u hh hr hsize, fun text => ⟨?_, ?_⟩⟩
  · exact parseLoop_ends u (bodyOf text)
  · obtain ⟨hpair, hall⟩ := trail_spec u (bodyOf text) ((bodyOf text).length + 1) 0
    exact ⟨parseLoop_eq_outcome u (bodyOf text) _ 0 [] [], hpair, fun e he => (hall e he).2⟩

/-- A value that looks like markup. -/
theorem adif_markup_value_survives :
    parseAdif .ascii (adifFile "log".toList [[("comment".toList, "<eor>\n<call:4>".toList)]]) =
      some (.ok [[("comment".toList, "<eor>\n<call:4>".toList)]]) := by
  refine (adif_records_survive .ascii).1 _ _ (by unfold IsHeader; decide) ?_ (by decide)
  intro r hr
  rw [List.mem_singleton.mp hr]
  refine ⟨by simp, ?_, by simp⟩
  intro f hf
  rw [List.mem_singleton.mp hf]
  exact ⟨by decide, List.all_iff_forall_prop.mp (by decide), by decide⟩

end CwStation.Adif
