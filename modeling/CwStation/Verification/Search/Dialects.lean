import CwStation.Verification.Search.Fts5
import CwStation.Verification.Search.Tsquery
import Mathlib.Data.List.Nodup
import Mathlib.Data.List.Pairwise

/-! # Do the two dialects mean the same?

They do where each group asks first and excludes afterwards, excludes no prefix, and no prefix
word is an operator of FTS5. Where no word of a query begins another one, they do nowhere
else. -/

namespace CwStation.QueryParser

open TextSearch

variable {u : Unicode}

/-- Both searches find the documents that the query means. -/
def Agree (q : Query u) : Prop :=
  ∀ doc, (fts5Finds u q.text doc = true ↔ q.Means doc) ∧
    (postgresFinds u q.text doc = true ↔ q.Means doc)

/-- What is asked for comes first, then what is excluded. -/
def InOrder (g : List (Item u)) : Prop :=
  ∃ asked excluded, g = asked ++ excluded ∧ (∀ i ∈ asked, i.positive = true) ∧
    ∀ i ∈ excluded, i.positive = false

structure Query.Regular (q : Query u) : Prop where
  order : ∀ g ∈ q.groups, InOrder g
  exclusions : ∀ g ∈ q.groups, ∀ w, .withoutStarts w ∉ g
  plain : ∀ g ∈ q.groups, ∀ i ∈ g, i.reserved = false

/-- The meaning of one group. -/
def MeansGroup (doc : List Str) (g : List (Item u)) : Prop :=
  (∀ i ∈ g, i.positive = true → i.Found doc) ∧ ∀ i ∈ g, i.positive = false → ¬i.Found doc

/-! ## Regular queries -/

/-- The runs of a group, one after the other, are the group. -/
theorem runs_flatten (g : List (Item u)) :
    g = (runs g).1 ++ (runs g).2.flatMap fun s => s.1 :: s.2 := by
  induction g with
  | nil => rfl
  | cons i g ih =>
    cases hi : i.positive with
    | true =>
      simp only [runs, hi, if_true, List.cons_append]
      exact congrArg (i :: ·) ih
    | false =>
      simp only [runs, hi, Bool.false_eq_true, if_false, List.nil_append, List.flatMap_cons,
        List.cons_append]
      exact congrArg (i :: ·) ih

theorem runs_excluded {excluded : List (Item u)} (h : ∀ i ∈ excluded, i.positive = false) :
    runs excluded = ([], excluded.map (·, [])) := by
  induction excluded with
  | nil => rfl
  | cons i excluded ih =>
    simp [runs, h i (.head _), ih fun j hj => h j (.tail _ hj)]

theorem runs_inOrder {asked excluded : List (Item u)} (hasked : ∀ i ∈ asked, i.positive = true)
    (hexcluded : ∀ i ∈ excluded, i.positive = false) :
    runs (asked ++ excluded) = (asked, excluded.map (·, [])) := by
  induction asked with
  | nil => exact runs_excluded hexcluded
  | cons i asked ih =>
    simp [runs, hasked i (.head _), ih fun j hj => hasked j (.tail _ hj)]

theorem inOrder_iff (g : List (Item u)) : InOrder g ↔ ∀ s ∈ (runs g).2, s.2 = [] := by
  constructor
  · rintro ⟨asked, excluded, rfl, hasked, hexcluded⟩ s hs
    rw [runs_inOrder hasked hexcluded] at hs
    obtain ⟨i, -, rfl⟩ := List.mem_map.mp hs
    rfl
  · intro h
    have hmem := mem_runs (g := g)
    refine ⟨(runs g).1, (runs g).2.map (·.1), ?_, fun i hi => (hmem.1 i hi).2, ?_⟩
    · have hflat : (runs g).2.flatMap (fun s => s.1 :: s.2) = (runs g).2.map (·.1) := by
        rw [List.map_eq_flatMap]
        exact List.flatMap_congr fun s hs => by rw [h s hs]
      rw [← hflat]
      exact runs_flatten g
    · intro i hi
      obtain ⟨s, hs, rfl⟩ := List.mem_map.mp hi
      exact (hmem.2 s hs).1.2

/-- In an ordered group, `NOT` takes nothing along. -/
theorem readsAs_iff {g : List (Item u)} (h : InOrder g) (doc : List Str) :
    ReadsAs doc g ↔ MeansGroup doc g := by
  obtain ⟨asked, excluded, rfl, hasked, hexcluded⟩ := h
  unfold ReadsAs MeansGroup
  rw [runs_inOrder hasked hexcluded]
  constructor
  · rintro ⟨hfound, hnot⟩
    constructor
    · intro i hi hpos
      rcases List.mem_append.mp hi with hi | hi
      · exact hfound i hi
      · rw [hexcluded i hi] at hpos
        cases hpos
    · intro i hi hneg
      rcases List.mem_append.mp hi with hi | hi
      · rw [hasked i hi] at hneg
        cases hneg
      · intro hi'
        exact hnot _ (List.mem_map_of_mem hi) ⟨hi', by simp⟩
  · rintro ⟨hfound, hnot⟩
    refine ⟨fun i hi => hfound i (List.mem_append_left _ hi) (hasked i hi), fun s hs => ?_⟩
    obtain ⟨i, hi, rfl⟩ := List.mem_map.mp hs
    exact fun h => hnot i (List.mem_append_right _ hi) (hexcluded i hi) h.1

/-- Without excluded prefixes, Postgres takes each item for what it means. -/
theorem holdsPg_iff {g : List (Item u)} (h : ∀ w, .withoutStarts w ∉ g) (doc : List Str) :
    HoldsPg doc g ↔ MeansGroup doc g := by
  have hitem : ∀ i ∈ g, (i.HoldsPg doc ↔
      (i.positive = true → i.Found doc) ∧ (i.positive = false → ¬i.Found doc)) := by
    intro i hi
    cases i with
    | withoutStarts w => exact absurd hi (h w)
    | word | starts | phrase | without => simp [Item.HoldsPg, Item.positive, Item.Found]
  constructor
  · intro hall
    exact ⟨fun i hi hpos => ((hitem i hi).mp (hall i hi)).1 hpos,
      fun i hi hneg => ((hitem i hi).mp (hall i hi)).2 hneg⟩
  · rintro ⟨hfound, hnot⟩ i hi
    exact (hitem i hi).mpr ⟨hfound i hi, hnot i hi⟩

theorem Query.Regular.wellPlaced {q : Query u} (h : q.Regular) : q.WellPlaced where
  plain := h.plain
  begins g hg := by
    obtain ⟨asked, excluded, rfl, hasked, hexcluded⟩ := h.order g hg
    obtain ⟨i, hi, hpos⟩ := q.asks _ hg
    cases asked with
    | nil =>
      rw [List.nil_append] at hi
      rw [hexcluded i hi] at hpos
      cases hpos
    | cons j asked => exact ⟨j, rfl, hasked j (.head _)⟩

theorem exists_groups_congr {q : Query u} {P Q : List (Item u) → Prop}
    (h : ∀ g ∈ q.groups, (P g ↔ Q g)) : (∃ g ∈ q.groups, P g) ↔ ∃ g ∈ q.groups, Q g := by
  constructor
  · rintro ⟨g, hg, hp⟩
    exact ⟨g, hg, (h g hg).mp hp⟩
  · rintro ⟨g, hg, hq⟩
    exact ⟨g, hg, (h g hg).mpr hq⟩

/-- On a regular query the dialects agree. -/
theorem Query.Regular.agree {q : Query u} (h : q.Regular) : Agree q := by
  intro doc
  constructor
  · rw [fts5Finds_iff h.wellPlaced]
    exact exists_groups_congr fun g hg => readsAs_iff (h.order g hg) doc
  · rw [postgresFinds_iff]
    exact exists_groups_congr fun g hg => holdsPg_iff (h.exclusions g hg) doc

/-! ## Words that have nothing to do with each other -/

/-- Neither word begins the other. -/
def Apart (a b : Str) : Prop := ¬a <+: b ∧ ¬b <+: a

theorem Apart.symm {a b : Str} (h : Apart a b) : Apart b a := ⟨h.2, h.1⟩

theorem not_apart_self (a : Str) : ¬Apart a a := fun h => h.1 (List.prefix_refl a)

/-- A longer word is apart from what the shorter one is apart from. -/
theorem Apart.append {a b : Str} (h : Apart a b) (c : Str) : Apart a (b ++ c) := by
  refine ⟨fun hprefix => ?_, fun hprefix => h.2 ((List.prefix_append b c).trans hprefix)⟩
  rcases List.prefix_or_prefix_of_prefix hprefix (List.prefix_append b c) with hab | hba
  · exact h.1 hab
  · exact h.2 hba

/-- No word of the query begins another one. -/
def Query.Unrelated (q : Query u) : Prop :=
  (q.groups.flatten.flatMap Item.words).Pairwise Apart

theorem Item.words_ne (i : Item u) : i.words ≠ [] := by
  cases i with
  | phrase q => exact q.ne
  | word | starts | without | withoutStarts => simp [Item.words]

theorem not_found_of_apart {i : Item u} {doc : List Str}
    (h : ∀ a ∈ i.words, ∀ d ∈ doc, Apart a d) : ¬i.Found doc := by
  have hword : ∀ a ∈ i.words, a ∉ doc := fun a ha hmem => not_apart_self a (h a ha a hmem)
  cases i with
  | word w plain => exact hword _ (.head _)
  | without w => exact hword _ (.head _)
  | starts w =>
    rintro ⟨d, hd, hprefix⟩
    exact (h _ (.head _) d hd).1 hprefix
  | withoutStarts w =>
    rintro ⟨d, hd, hprefix⟩
    exact (h _ (.head _) d hd).1 hprefix
  | phrase q =>
    intro hinfix
    cases hsplit : splitSpaces q.text with
    | nil => exact q.ne hsplit
    | cons a ws =>
      have ha : a ∈ splitSpaces q.text := hsplit ▸ .head _
      exact hword a ha (List.IsInfix.subset hinfix ha)

theorem found_of_infix {i : Item u} {doc : List Str} (h : i.words <:+: doc) : i.Found doc := by
  cases i with
  | phrase q => exact h
  | word w plain => exact h.subset (.head _)
  | without w => exact h.subset (.head _)
  | starts w => exact ⟨_, h.subset (.head _), List.prefix_refl _⟩
  | withoutStarts w => exact ⟨_, h.subset (.head _), List.prefix_refl _⟩

/-- A document made of the words of items holds the items. -/
theorem found_of_mem {items : List (Item u)} {i : Item u} (hi : i ∈ items) (more : List Str) :
    i.Found (items.flatMap Item.words ++ more) := by
  obtain ⟨l₁, l₂, rfl⟩ := List.append_of_mem hi
  refine found_of_infix ⟨l₁.flatMap Item.words, l₂.flatMap Item.words ++ more, ?_⟩
  simp

section Unrelated

variable {q : Query u}

theorem Query.Unrelated.items (h : q.Unrelated) :
    q.groups.flatten.Pairwise fun i j => ∀ a ∈ i.words, ∀ b ∈ j.words, Apart a b :=
  (List.pairwise_flatMap.mp h).2

theorem Query.Unrelated.nodup (h : q.Unrelated) : q.groups.flatten.Nodup := by
  refine h.items.imp fun {i j} hij => ?_
  rintro rfl
  obtain ⟨a, ha⟩ := List.exists_mem_of_ne_nil _ i.words_ne
  exact not_apart_self a (hij a ha a ha)

/-- Different items have nothing to do with each other. -/
theorem Query.Unrelated.apart (h : q.Unrelated) {g g' : List (Item u)} (hg : g ∈ q.groups)
    (hg' : g' ∈ q.groups) {i j : Item u} (hi : i ∈ g) (hj : j ∈ g') (hne : i ≠ j) :
    ∀ a ∈ i.words, ∀ b ∈ j.words, Apart a b := by
  have hsymm : Std.Symm fun i j : Item u => ∀ a ∈ i.words, ∀ b ∈ j.words, Apart a b :=
    ⟨fun i j hij a ha b hb => (hij b hb a ha).symm⟩
  exact h.items.forall (List.mem_flatten.mpr ⟨g, hg, hi⟩) (List.mem_flatten.mpr ⟨g', hg', hj⟩) hne

/-- An item stands in one group only. -/
theorem Query.Unrelated.group_eq (h : q.Unrelated) {g g' : List (Item u)} (hg : g ∈ q.groups)
    (hg' : g' ∈ q.groups) {i : Item u} (hi : i ∈ g) (hi' : i ∈ g') : g = g' := by
  by_contra hne
  have hsymm : Std.Symm (@List.Disjoint (Item u)) := ⟨fun _ _ hd _ ha hb => hd hb ha⟩
  exact (List.nodup_flatten.mp h.nodup).2.forall hg hg' hne hi hi'

/-- A document made of words of one group, and of words that are apart from the other groups,
is meant by that group if it is meant at all. -/
theorem Query.Unrelated.meansGroup (h : q.Unrelated) {g : List (Item u)} (hg : g ∈ q.groups)
    {doc : List Str}
    (hdoc : ∀ d ∈ doc, ∃ i ∈ g, ∃ a ∈ i.words, ∃ c, d = a ++ c) (hmeans : q.Means doc) :
    MeansGroup doc g := by
  obtain ⟨g', hg', hgroup⟩ := hmeans
  by_cases hsame : g' = g
  · exact hsame ▸ hgroup
  · obtain ⟨j, hj, hpos⟩ := q.asks g' hg'
    refine absurd (hgroup.1 j hj hpos) (not_found_of_apart fun b hb d hd => ?_)
    obtain ⟨i, hi, a, ha, c, rfl⟩ := hdoc d hd
    have hne : j ≠ i := by
      rintro rfl
      exact hsame (h.group_eq hg' hg hj hi)
    exact (h.apart hg' hg hj hi hne b hb a ha).append c

/-- What a group asks for, as a document. -/
def asked (g : List (Item u)) : List Str :=
  (g.filter fun i => i.positive).flatMap Item.words

theorem mem_asked {g : List (Item u)} {d : Str} (hd : d ∈ asked g) :
    ∃ i ∈ g, i.positive = true ∧ d ∈ i.words := by
  obtain ⟨i, hi, hd⟩ := List.mem_flatMap.mp hd
  obtain ⟨hi, hpos⟩ := List.mem_filter.mp hi
  exact ⟨i, hi, hpos, hd⟩

theorem found_asked {g : List (Item u)} {i : Item u} (hi : i ∈ g) (hpos : i.positive = true)
    (more : List Str) : i.Found (asked g ++ more) :=
  found_of_mem (List.mem_filter.mpr ⟨hi, hpos⟩) more

/-- An excluded item is apart from what the group asks for. -/
theorem Query.Unrelated.excluded (h : q.Unrelated) {g : List (Item u)} (hg : g ∈ q.groups)
    {i : Item u} (hi : i ∈ g) (hneg : i.positive = false) :
    ∀ a ∈ i.words, ∀ d ∈ asked g, Apart a d := by
  intro a ha d hd
  obtain ⟨j, hj, hpos, hd⟩ := mem_asked hd
  refine h.apart hg hg hi hj ?_ a ha d hd
  rintro rfl
  rw [hneg] at hpos
  cases hpos

/-- What FTS5 cannot read, it does not find. -/
theorem Query.Unrelated.wellPlaced (h : q.Unrelated) (hagree : Agree q) : q.WellPlaced := by
  have hmeans : q.Means (asked q.first) := by
    refine ⟨q.first, .head _, fun i hi hpos => ?_, fun i hi hneg => ?_⟩
    · have hfound := found_asked hi hpos []
      rwa [List.append_nil] at hfound
    · exact not_found_of_apart (h.excluded (.head _) hi hneg)
  exact wellPlaced_of_finds ((hagree (asked q.first)).1.mpr hmeans)

/-- A positive item behind an exclusion is not asked for by FTS5. -/
theorem Query.Unrelated.inOrder (h : q.Unrelated) (hagree : Agree q) {g : List (Item u)}
    (hg : g ∈ q.groups) : InOrder g := by
  rw [inOrder_iff]
  intro s hs
  by_contra hne
  obtain ⟨i, hi⟩ := List.exists_mem_of_ne_nil _ hne
  have hmem := mem_runs (g := g)
  have hfinds : fts5Finds u q.text ((runs g).1.flatMap Item.words) = true := by
    refine (fts5Finds_iff (h.wellPlaced hagree) _).mpr ⟨g, hg, fun j hj => ?_, fun t ht => ?_⟩
    · have hfound := found_of_mem hj []
      rwa [List.append_nil] at hfound
    · rintro ⟨hfound, -⟩
      refine not_found_of_apart (fun a ha d hd => ?_) hfound
      obtain ⟨j, hj, hd⟩ := List.mem_flatMap.mp hd
      refine h.excluded hg (hmem.2 t ht).1.1 (hmem.2 t ht).1.2 a ha d ?_
      exact List.mem_flatMap.mpr
        ⟨j, List.mem_filter.mpr ⟨(hmem.1 j hj).1, (hmem.1 j hj).2⟩, hd⟩
  have hmeans : MeansGroup ((runs g).1.flatMap Item.words) g := by
    refine h.meansGroup hg (fun d hd => ?_) ((hagree _).1.mp hfinds)
    obtain ⟨j, hj, hd⟩ := List.mem_flatMap.mp hd
    exact ⟨j, (hmem.1 j hj).1, d, hd, [], (List.append_nil d).symm⟩
  have hnodup : g.Nodup := (List.nodup_flatten.mp h.nodup).1 g hg
  have hapart : ∀ j ∈ (runs g).1, i ≠ j := by
    rintro j hj rfl
    rw [runs_flatten g] at hnodup
    exact (List.disjoint_of_nodup_append hnodup) hj
      (List.mem_flatMap.mpr ⟨s, hs, .tail _ hi⟩)
  obtain ⟨hig, hpos⟩ := (hmem.2 s hs).2 i hi
  refine not_found_of_apart (fun a ha d hd => ?_) (hmeans.1 i hig hpos)
  obtain ⟨j, hj, hd⟩ := List.mem_flatMap.mp hd
  exact h.apart hg hg hig (hmem.1 j hj).1 (hapart j hj) a ha d hd

/-- Postgres excludes the word, and not what begins with it. -/
theorem Query.Unrelated.not_withoutStarts (h : q.Unrelated) (hagree : Agree q)
    {g : List (Item u)} (hg : g ∈ q.groups) (w : Word u) : .withoutStarts w ∉ g := by
  intro hw
  have hholds : HoldsPg (asked g ++ [w.text ++ ['x']]) g := by
    have hout : ∀ i ∈ g, i.positive = false → ∀ a ∈ i.words,
        a ∉ asked g ++ [w.text ++ ['x']] := by
      intro i hi hneg a ha hmem
      rcases List.mem_append.mp hmem with hmem | hmem
      · exact not_apart_self a (h.excluded hg hi hneg a ha a hmem)
      · rw [List.mem_singleton] at hmem
        subst hmem
        by_cases hsame : i = .withoutStarts w
        · subst hsame
          have hlength := congrArg List.length (List.mem_singleton.mp ha)
          simp at hlength
        · exact (h.apart hg hg hi hw hsame _ ha _ (.head _)).2 (List.prefix_append _ _)
    intro i hi
    cases i with
    | word v plain => exact found_asked hi rfl _
    | starts v => exact found_asked hi rfl _
    | phrase p => exact found_asked hi rfl _
    | without v => exact hout _ hi rfl _ (.head _)
    | withoutStarts v => exact hout _ hi rfl _ (.head _)
  have hfinds := (postgresFinds_iff q _).mpr ⟨g, hg, hholds⟩
  have hmeans : MeansGroup (asked g ++ [w.text ++ ['x']]) g := by
    refine h.meansGroup hg (fun d hd => ?_) ((hagree _).2.mp hfinds)
    rcases List.mem_append.mp hd with hd | hd
    · obtain ⟨i, hi, -, hd⟩ := mem_asked hd
      exact ⟨i, hi, d, hd, [], (List.append_nil d).symm⟩
    · exact ⟨_, hw, w.text, .head _, ['x'], List.mem_singleton.mp hd⟩
  refine hmeans.2 _ hw rfl ⟨w.text ++ ['x'], ?_, List.prefix_append _ _⟩
  exact List.mem_append_right _ (.head _)

end Unrelated

/-- The two dialects and the documentation agree on every regular query; where no word of the
query begins another one, on regular queries only. -/
theorem dialects_agree (u : Unicode) (q : Query u) :
    (q.Regular → Agree q) ∧ (q.Unrelated → (Agree q ↔ q.Regular)) := by
  refine ⟨fun h => h.agree, fun h => ⟨fun hagree => ?_, fun hregular => hregular.agree⟩⟩
  exact ⟨fun g hg => h.inOrder hagree hg, fun g hg w => h.not_withoutStarts hagree hg w,
    (h.wellPlaced hagree).plain⟩

/-! ## A word behind an exclusion -/

def asciiWord (text : Str) (ne : text ≠ []) (alnum : text.all (isAlnum Unicode.ascii) = true) :
    Word Unicode.ascii := ⟨text, ne, List.all_eq_true.mp alnum⟩

def api : Item Unicode.ascii :=
  .word (asciiWord "api".toList (by decide) (by decide +kernel)) (by decide +kernel)

def web : Item Unicode.ascii :=
  .word (asciiWord "web".toList (by decide) (by decide +kernel)) (by decide +kernel)

def withoutSlow : Item Unicode.ascii :=
  .without (asciiWord "slow".toList (by decide) (by decide +kernel))

/-- `api -slow web`. -/
def apiSlowWeb : Query Unicode.ascii :=
  .spell [api, withoutSlow, web] [] (by simp) (by
    intro g hg
    rw [List.mem_singleton.mp hg]
    exact ⟨api, .head _, rfl⟩)

/-- `api web -slow`. -/
def apiWebSlow : Query Unicode.ascii :=
  .spell [api, web, withoutSlow] [] (by simp) (by
    intro g hg
    rw [List.mem_singleton.mp hg]
    exact ⟨api, .head _, rfl⟩)

/-- FTS5 finds a document with `api -slow web` that lacks `web`. -/
theorem exclusion_takes_word : ¬∀ (u : Unicode) (q : Query u), Agree q := by
  intro h
  have hfts := (h Unicode.ascii apiSlowWeb ["api".toList]).1.mp (by decide +kernel)
  obtain ⟨g, hg, hfound, -⟩ := hfts
  rw [List.mem_singleton.mp hg] at hfound
  have hweb : "web".toList ∈ ["api".toList] := hfound web (.tail _ (.tail _ (.head _))) rfl
  exact absurd hweb (by decide)

/-- With the exclusion behind both words, the dialects agree. -/
theorem exclusion_last_agrees : Agree apiWebSlow := by
  refine (dialects_agree Unicode.ascii apiWebSlow).1 ⟨fun g hg => ?_, fun g hg w hw => ?_, ?_⟩
  · rw [List.mem_singleton.mp hg]
    refine ⟨[api, web], [withoutSlow], rfl, fun i hi => ?_, fun i hi => ?_⟩
    · rcases List.mem_cons.mp hi with rfl | hi
      · rfl
      · rw [List.mem_singleton.mp hi]
        rfl
    · rw [List.mem_singleton.mp hi]
      rfl
  · rw [List.mem_singleton.mp hg] at hw
    simp [apiWebSlow, Query.spell, api, web, withoutSlow] at hw
  · intro g hg i hi
    rw [List.mem_singleton.mp hg] at hi
    simp only [apiWebSlow, Query.spell, List.mem_cons, List.not_mem_nil, or_false] at hi
    rcases hi with rfl | rfl | rfl <;> rfl

end CwStation.QueryParser
