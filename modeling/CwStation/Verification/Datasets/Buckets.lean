import CwStation.Library.Intervals
import CwStation.Model.Datasets

/-! # When automatic buckets partition the rows

The buckets of an automatic dimension are the most frequent values and, past the limit, the
remainder. A row falls into two of them only through NULL: it is not among the values the
remainder leaves out. -/

namespace CwStation.Datasets

variable {Row : Type}

/-- An automatic dimension over a column of the dataset. -/
structure AutoDimension (ds : Dataset Row) where
  field : Str
  auto : Auto
  known : field ∈ ds.columnNames

def AutoDimension.dimension {ds : Dataset Row} (d : AutoDimension ds) : Dimension where
  field := d.field
  auto := some d.auto

variable (env : Env) (ds : Dataset Row) (d : AutoDimension ds) (filters : List (Str × Str))

/-! ### The buckets -/

/-- The distinct values of the dimension, the most frequent ones first. -/
def rankedValues : List (Option Str) := ranked env (column ds d.field ds.source)

/-- The values that get a bucket of their own. -/
def topValues : List (Option Str) := (rankedValues env ds d).take d.auto.effectiveLimit.toNat

/-- There are more distinct values than the limit. -/
def Overflows : Prop := d.auto.effectiveLimit < (rankedValues env ds d).length

instance : Decidable (Overflows env ds d) := inferInstanceAs (Decidable (_ < _))

def valueBucket (value : Option Str) : Bucket :=
  ⟨valueKey value, bucketLabel env ds ds.source d.dimension d.auto value, .value value⟩

def otherBucket : Bucket := ⟨"other".toList, "Other".toList, .other⟩

def autoBuckets : List Bucket :=
  (topValues env ds d).map (valueBucket env ds d) ++
    if Overflows env ds d then [otherBucket] else []

theorem deriveBuckets_eq (h : -1 ≤ d.auto.effectiveLimit) :
    deriveBuckets env ds (filteredQs env ds []) d.dimension d.auto =
      .ok (autoBuckets env ds d) := by
  have hlimit : ¬d.auto.effectiveLimit + 1 < 0 := by omega
  have htake : ((rankedValues env ds d).take (d.auto.effectiveLimit + 1).toNat).take
      d.auto.effectiveLimit.toNat = topValues env ds d := by
    rw [List.take_take, min_eq_left (by omega), topValues]
  have hover : (d.auto.effectiveLimit <
      (((rankedValues env ds d).take (d.auto.effectiveLimit + 1).toNat).length : ℤ)) ↔
      Overflows env ds d := by
    rw [List.length_take, Overflows]
    omega
  have hscope : filteredQs env ds [] = ds.source := rfl
  simp only [deriveBuckets, hlimit, if_false, hscope]
  change Except.ok (if d.auto.effectiveLimit <
      (((rankedValues env ds d).take (d.auto.effectiveLimit + 1).toNat).length : ℤ) then
      (((rankedValues env ds d).take (d.auto.effectiveLimit + 1).toNat).take
        d.auto.effectiveLimit.toNat).map (valueBucket env ds d) ++ [otherBucket]
      else (((rankedValues env ds d).take (d.auto.effectiveLimit + 1).toNat).take
        d.auto.effectiveLimit.toNat).map (valueBucket env ds d)) = _
  rw [htake, autoBuckets]
  by_cases hOver : Overflows env ds d
  · rw [if_pos (hover.mpr hOver), if_pos hOver]
  · rw [if_neg fun h => hOver (hover.mp h), if_neg hOver, List.append_nil]

theorem nodup_rankedValues : (rankedValues env ds d).Nodup :=
  (List.perm_insertionSort _ _).nodup_iff.mpr (List.nodup_dedup _)

theorem mem_rankedValues {value : Option Str} :
    value ∈ rankedValues env ds d ↔ ∃ row ∈ ds.source, ds.cell row d.field = value := by
  rw [rankedValues, ranked, List.mem_insertionSort, List.mem_dedup, column, List.mem_map]

theorem nodup_topValues : (topValues env ds d).Nodup :=
  (nodup_rankedValues env ds d).sublist (List.take_sublist _ _)

theorem dimensionValues_autoBuckets :
    dimensionValues (autoBuckets env ds d) = topValues env ds d := by
  have hvalues (l : List (Option Str)) : dimensionValues (l.map (valueBucket env ds d)) = l := by
    induction l with
    | nil => rfl
    | cons value l ih =>
      rw [dimensionValues] at ih ⊢
      rw [List.map_cons, List.flatMap_cons, ih]
      rfl
  rw [autoBuckets, dimensionValues, List.flatMap_append]
  by_cases hover : Overflows env ds d
  · rw [if_pos hover]
    exact (List.append_nil _).trans (hvalues _)
  · rw [if_neg hover]
    exact (List.append_nil _).trans (hvalues _)

/-! ### Keys -/

theorem valueKey_inj {a b : Option Str} (h : valueKey a = valueKey b)
    (hne : ¬(a = none ∧ b = some "None".toList)) (hne' : ¬(b = none ∧ a = some "None".toList)) :
    a = b := by
  have htext : cellText a = cellText b := List.append_cancel_left h
  cases a with
  | none =>
    cases b with
    | none => rfl
    | some text => exact absurd ⟨rfl, congrArg some htext.symm⟩ hne
  | some text =>
    cases b with
    | none => exact absurd ⟨rfl, congrArg some htext⟩ hne'
    | some text' => exact congrArg some htext

theorem valueKey_ne_other (value : Option Str) : valueKey value ≠ "other".toList := by
  intro h
  have hhead : 'v' = 'o' := (List.cons.inj h).1
  exact absurd hhead (by decide)

/-- The two values that are spelled alike, NULL and the text `None`, both have a bucket. -/
def Collides : Prop :=
  none ∈ topValues env ds d ∧ some "None".toList ∈ topValues env ds d

theorem unique_autoBuckets_iff :
    Table.Unique Bucket.key (autoBuckets env ds d) ↔ ¬Collides env ds d := by
  have hkeys : ((topValues env ds d).map (valueBucket env ds d)).map Bucket.key =
      (topValues env ds d).map valueKey := by
    rw [List.map_map]
    rfl
  constructor
  · intro hunique hcollides
    rw [Table.Unique, autoBuckets, List.map_append, hkeys] at hunique
    have hinj := List.inj_on_of_nodup_map hunique.of_append_left
    exact absurd (hinj hcollides.1 hcollides.2 rfl) (by simp)
  · intro hno
    rw [Table.Unique, autoBuckets, List.map_append, hkeys, List.nodup_append]
    refine ⟨?_, ?_, ?_⟩
    · apply List.Nodup.map_on _ (nodup_topValues env ds d)
      intro a ha b hb heq
      apply valueKey_inj heq
      · rintro ⟨rfl, rfl⟩
        exact hno ⟨ha, hb⟩
      · rintro ⟨rfl, rfl⟩
        exact hno ⟨hb, ha⟩
    · by_cases hover : Overflows env ds d <;> simp [hover]
    · intro key hkey key' hkey'
      obtain ⟨value, -, rfl⟩ := List.mem_map.mp hkey
      by_cases hover : Overflows env ds d
      · simp only [hover, if_true, List.map_cons, List.map_nil, List.mem_singleton] at hkey'
        exact hkey' ▸ valueKey_ne_other value
      · simp [hover] at hkey'

/-! ### The rows of a bucket -/

/-- How many buckets a cell falls into. -/
theorem countP_autoBuckets (cell : Option Str) :
    ((autoBuckets env ds d).countP fun b =>
        bucketCond env b (dimensionValues (autoBuckets env ds d)) cell) =
      (topValues env ds d).count cell +
        if Overflows env ds d ∧ isIn (topValues env ds d) cell = false then 1 else 0 := by
  have hvalues : (((topValues env ds d).map (valueBucket env ds d)).countP fun b =>
      bucketCond env b (topValues env ds d) cell) = (topValues env ds d).count cell := by
    rw [List.countP_map, List.count]
    apply List.countP_congr
    intro value _
    change decide (cell = value) = true ↔ (value == cell) = true
    rw [decide_eq_true_eq, beq_iff_eq, eq_comm]
  rw [dimensionValues_autoBuckets]
  nth_rewrite 1 [autoBuckets]
  rw [List.countP_append, hvalues]
  by_cases hover : Overflows env ds d
  · simp [hover, otherBucket, bucketCond]
  · simp [hover]

/-- A NULL that has its own bucket falls into the remainder as well. -/
theorem countP_null (h : none ∈ topValues env ds d) :
    ((autoBuckets env ds d).countP fun b =>
        bucketCond env b (dimensionValues (autoBuckets env ds d)) none) =
      if Overflows env ds d then 2 else 1 := by
  rw [countP_autoBuckets, List.count_eq_one_of_mem (nodup_topValues env ds d) h]
  by_cases hover : Overflows env ds d <;> simp [hover, isIn]

/-- A cell of the table falls into exactly one bucket, but for such a NULL. -/
theorem countP_eq_one_iff {row : Row} (hrow : row ∈ ds.source) :
    ((autoBuckets env ds d).countP fun b =>
        bucketCond env b (dimensionValues (autoBuckets env ds d)) (ds.cell row d.field)) = 1 ↔
      ¬(ds.cell row d.field = none ∧ none ∈ topValues env ds d ∧ Overflows env ds d) := by
  by_cases htop : ds.cell row d.field ∈ topValues env ds d
  · by_cases hnull : ds.cell row d.field = none
    · rw [hnull] at htop ⊢
      rw [countP_null env ds d htop]
      by_cases hover : Overflows env ds d <;> simp [hover, htop]
    · have hin : isIn (topValues env ds d) (ds.cell row d.field) = true := by
        simp [isIn, htop, Option.isSome_iff_ne_none.mpr hnull]
      rw [countP_autoBuckets, List.count_eq_one_of_mem (nodup_topValues env ds d) htop]
      simp [hin, hnull]
  · have hin : isIn (topValues env ds d) (ds.cell row d.field) = false := by simp [isIn, htop]
    -- a value without a bucket is there only past the limit
    have hover : Overflows env ds d := by
      by_contra hno
      apply htop
      rw [topValues, List.take_of_length_le]
      · exact (mem_rankedValues env ds d).mpr ⟨row, hrow, rfl⟩
      · rw [Overflows] at hno
        omega
    have hnotNull : ¬(ds.cell row d.field = none ∧ none ∈ topValues env ds d ∧
        Overflows env ds d) := by
      rintro ⟨hnull, hmem, -⟩
      exact htop (hnull ▸ hmem)
    rw [countP_autoBuckets, List.count_eq_zero_of_not_mem htop, if_pos ⟨hover, hin⟩]
    exact iff_of_true rfl hnotNull

/-! ### The series and the drilldown -/

variable {ds}

theorem filteredQs_subset : filteredQs env ds filters ⊆ ds.source := by
  have hpipeline (request : Urlencoded.QueryDict) (qs : List Row) :
      applyListFilters env ds request qs ⊆ qs := by
    unfold applyListFilters
    induction ds.filterFieldNames generalizing qs with
    | nil => exact List.Subset.refl qs
    | cons name names ih =>
      rw [List.foldl_cons]
      apply List.Subset.trans (ih _)
      by_cases hvalue : strip (request.get name) = []
      · simp [hvalue]
      · simp only [hvalue, if_false]
        exact List.filter_subset_self _
  unfold filteredQs
  by_cases hnil : filters = []
  · simp [hnil]
  · rw [if_neg hnil]
    cases filterRequest ds filters with
    | none => exact List.filter_subset_self _
    | some request => exact List.Subset.trans (hpipeline _ _) (List.filter_subset_self _)

/-- The bars of the series, when every alias is accepted and no key is shared. -/
def bars : List Bar :=
  (autoBuckets env ds d).map fun b =>
    ⟨b.key, b.label,
      (bucketRows env ds d.field (autoBuckets env ds d) b (filteredQs env ds filters)).length,
      b.shape.bounds.1, b.shape.bounds.2⟩

theorem resolveBuckets_eq (h : -1 ≤ d.auto.effectiveLimit) :
    resolveBuckets env ds d.dimension = .ok (autoBuckets env ds d) :=
  deriveBuckets_eq env ds d h

theorem aliases_autoBuckets_iff :
    ((autoBuckets env ds d).all fun b => env.aliasAllowed b.key) = true ↔
      ∀ value ∈ topValues env ds d, env.aliasAllowed (valueKey value) = true := by
  rw [List.all_eq_true]
  constructor
  · intro h value hvalue
    exact h (valueBucket env ds d value)
      (List.mem_append_left _ (List.mem_map_of_mem hvalue))
  · intro h b hb
    rcases List.mem_append.mp hb with hb | hb
    · obtain ⟨value, hvalue, rfl⟩ := List.mem_map.mp hb
      exact h value hvalue
    · by_cases hover : Overflows env ds d
      · rw [if_pos hover, List.mem_singleton] at hb
        rw [hb]
        exact env.other_allowed
      · simp [hover] at hb

theorem aggregated_eq (hunique : Table.Unique Bucket.key (autoBuckets env ds d)) {b : Bucket}
    (hb : b ∈ autoBuckets env ds d) (qs : List Row) :
    aggregated env ds d.field (autoBuckets env ds d) qs b.key =
      (bucketRows env ds d.field (autoBuckets env ds d) b qs).length := by
  have hreverse : Table.Unique Bucket.key (autoBuckets env ds d).reverse := by
    rw [Table.Unique, List.map_reverse]
    exact List.nodup_reverse.mpr hunique
  rw [aggregated, Table.get_of_mem hreverse (List.mem_reverse.mpr hb)]

theorem bucketedSeries_eq (hlimit : -1 ≤ d.auto.effectiveLimit)
    (haliases : ∀ value ∈ topValues env ds d, env.aliasAllowed (valueKey value) = true)
    (hunique : Table.Unique Bucket.key (autoBuckets env ds d)) :
    bucketedSeries env ds d.dimension filters = .ok (bars env d filters) := by
  have hknown : ¬d.dimension.field ∉ ds.columnNames := not_not.mpr d.known
  rw [bucketedSeries, if_neg hknown, resolveBuckets_eq env d hlimit]
  change (if ((autoBuckets env ds d).all fun b => env.aliasAllowed b.key) = true then _ else _) = _
  rw [if_pos ((aliases_autoBuckets_iff env d).mpr haliases), bars]
  congr 1
  apply List.map_congr_left
  intro b hb
  rw [← aggregated_eq env d hunique hb]
  rfl

theorem count_bucket_eq (hlimit : -1 ≤ d.auto.effectiveLimit)
    (hunique : Table.Unique Bucket.key (autoBuckets env ds d)) {b : Bucket}
    (hb : b ∈ autoBuckets env ds d) :
    count env ds filters (some (d.dimension, b.key)) =
      .ok (bucketRows env ds d.field (autoBuckets env ds d) b
        (filteredQs env ds filters)).length := by
  have hknown : ¬d.dimension.field ∉ ds.columnNames := not_not.mpr d.known
  have hfound : bucketByKey (autoBuckets env ds d) b.key = some b := Table.get_of_mem hunique hb
  simp only [count, scopedQs, if_neg hknown, resolveBuckets_eq env d hlimit, bind, Except.bind,
    hfound]
  rfl

/-! ### The partition -/

/-- What the buckets of an automatic dimension are for: their keys are distinct, each row
of the table falls into exactly one, the bars of the series add up to the filtered rows, and
each bar is the count of its drilldown. -/
def Partitioned : Prop :=
  ∃ buckets series,
    deriveBuckets env ds (filteredQs env ds []) d.dimension d.auto = .ok buckets ∧
    Table.Unique Bucket.key buckets ∧
    (∀ row ∈ ds.source, (buckets.countP fun b =>
      bucketCond env b (dimensionValues buckets) (ds.cell row d.field)) = 1) ∧
    bucketedSeries env ds d.dimension filters = .ok series ∧
    series.map Bar.key = buckets.map Bucket.key ∧
    count env ds filters none = .ok (series.map Bar.value).sum ∧
    ∀ bar ∈ series, count env ds filters (some (d.dimension, bar.key)) = .ok bar.value

/-- The tables the buckets partition: the limit can be sliced with, the most frequent values
may stand in an alias and do not hold both NULL and the text `None`, and NULL is not one of
them when there are more values than the limit. -/
structure Separable : Prop where
  limit : -1 ≤ d.auto.effectiveLimit
  aliases : ∀ value ∈ topValues env ds d, env.aliasAllowed (valueKey value) = true
  spelling : ¬(none ∈ topValues env ds d ∧ some "None".toList ∈ topValues env ds d)
  nulls : ¬(none ∈ topValues env ds d ∧ Overflows env ds d)

theorem countP_of_separable (h : Separable env d) {row : Row} (hrow : row ∈ ds.source) :
    ((autoBuckets env ds d).countP fun b =>
      bucketCond env b (dimensionValues (autoBuckets env ds d)) (ds.cell row d.field)) = 1 := by
  rw [countP_eq_one_iff env ds d hrow]
  rintro ⟨-, hnull⟩
  exact h.nulls hnull

/-- Each filtered row is counted by exactly one bar. -/
theorem sum_bars (h : Separable env d) :
    ((bars env d filters).map Bar.value).sum = (filteredQs env ds filters).length := by
  have hconds := Counting.sum_countP_of_partition
    ((autoBuckets env ds d).map fun b (row : Row) =>
      bucketCond env b (dimensionValues (autoBuckets env ds d)) (ds.cell row d.field))
    (filteredQs env ds filters) (by
      intro row hrow
      rw [List.countP_map]
      exact countP_of_separable env d h (filteredQs_subset env filters hrow))
  rw [← hconds, bars, List.map_map, List.map_map]
  congr 1
  apply List.map_congr_left
  intro b _
  exact List.countP_eq_length_filter.symm

theorem partitioned_of_separable (h : Separable env d) : Partitioned env d filters := by
  have hunique := (unique_autoBuckets_iff env ds d).mpr h.spelling
  refine ⟨autoBuckets env ds d, bars env d filters, deriveBuckets_eq env ds d h.limit, hunique,
    fun row hrow => countP_of_separable env d h hrow,
    bucketedSeries_eq env d filters h.limit h.aliases hunique, ?_, ?_, ?_⟩
  · rw [bars, List.map_map]
    rfl
  · rw [sum_bars env d filters h]
    rfl
  · intro bar hbar
    obtain ⟨b, hb, rfl⟩ := List.mem_map.mp hbar
    exact count_bucket_eq env d filters h.limit hunique hb

theorem separable_of_partitioned (h : Partitioned env d filters) : Separable env d := by
  obtain ⟨buckets, series, hderive, hunique, hone, hseries, -, -, -⟩ := h
  have hlimit : -1 ≤ d.auto.effectiveLimit := by
    by_contra hlow
    rw [deriveBuckets, if_pos (show d.auto.effectiveLimit + 1 < 0 by omega)] at hderive
    cases hderive
  rw [deriveBuckets_eq env ds d hlimit] at hderive
  cases hderive
  have hspelling := (unique_autoBuckets_iff env ds d).mp hunique
  refine ⟨hlimit, ?_, hspelling, ?_⟩
  · rw [← aliases_autoBuckets_iff]
    by_contra hbad
    have hknown : ¬d.dimension.field ∉ ds.columnNames := not_not.mpr d.known
    rw [bucketedSeries, if_neg hknown, resolveBuckets_eq env d hlimit] at hseries
    simp only [bind, Except.bind, if_neg hbad] at hseries
    cases hseries
  · rintro ⟨hnull, hover⟩
    have hmem : none ∈ rankedValues env ds d := List.mem_of_mem_take hnull
    obtain ⟨row, hrow, hcell⟩ := (mem_rankedValues env ds d).mp hmem
    exact (countP_eq_one_iff env ds d hrow).mp (hone row hrow) ⟨hcell, hnull, hover⟩

/-- The buckets of an automatic dimension partition the rows exactly of separable tables,
under every filters mapping. -/
theorem buckets_partition_iff : Partitioned env d filters ↔ Separable env d :=
  ⟨separable_of_partitioned env d filters, partitioned_of_separable env d filters⟩

/-! ### A NULL counted twice -/

/-- A database that sorts NULLs first and takes every alias. -/
def plainEnv : Env where
  unicode := Unicode.ascii
  today := ⟨0, 1, 1⟩
  fromIso _ := none
  collate a b := a.isNone || b.isSome
  aliasAllowed _ := true
  other_allowed := rfl

/-- Three rows: two without a band, one on 20m. -/
def bandLog : Dataset (Option Str) where
  source := [none, none, some "20m".toList]
  columns := [("band".toList, "text".toList)]
  filterable := none
  kind _ := .other
  holds _ _ := true
  cell row _ := row

def byBand : AutoDimension bandLog where
  field := "band".toList
  auto := { limit := some 1 }
  known := by decide

theorem null_in_two_buckets :
    bucketedSeries plainEnv bandLog byBand.dimension [] =
        .ok [⟨"v:None".toList, "(blank)".toList, 2, none, none⟩,
          ⟨"other".toList, "Other".toList, 3, none, none⟩] ∧
      ¬Partitioned plainEnv byBand [] := by
  have hseries : bucketedSeries plainEnv bandLog byBand.dimension [] =
      .ok [⟨"v:None".toList, "(blank)".toList, 2, none, none⟩,
        ⟨"other".toList, "Other".toList, 3, none, none⟩] := by decide +kernel
  refine ⟨hseries, ?_⟩
  rintro ⟨buckets, series, -, -, -, hread, -, hsum, -⟩
  rw [hseries] at hread
  cases hread
  have hthree : (Except.ok 3 : Except PyExc ℕ) = .ok 5 := hsum
  cases hthree

/-! ### Values in aliases -/

/-- Text that Django takes for the alias of an aggregate: no white space, quotation mark, square
bracket, semicolon or comment marker of SQL. -/
def Plain (text : Str) : Prop :=
  (∀ c ∈ text, isSpace c = false ∧ c ∉ "'\"`[];".toList) ∧
    ∀ mark ∈ ["--".toList, "/*".toList, "*/".toList], ¬mark <:+: text

instance (text : Str) : Decidable (Plain text) :=
  @instDecidableAnd _ _ (List.decidableBAll _ _) (List.decidableBAll _ _)

theorem plain_valueKey_iff (value : Option Str) : Plain (valueKey value) ↔ Plain (cellText value) := by
  have hmarks (mark : Str) (h : mark ∈ ["--".toList, "/*".toList, "*/".toList]) :
      mark <:+: valueKey value ↔ mark <:+: cellText value := by
    change mark <:+: 'v' :: ':' :: cellText value ↔ _
    rw [List.infix_cons_iff, List.infix_cons_iff]
    simp only [List.mem_cons, List.not_mem_nil, or_false] at h
    rcases h with rfl | rfl | rfl <;> simp
  have hchars : (∀ c ∈ valueKey value, isSpace c = false ∧ c ∉ "'\"`[];".toList) ↔
      ∀ c ∈ cellText value, isSpace c = false ∧ c ∉ "'\"`[];".toList := by
    have hv : isSpace 'v' = false ∧ 'v' ∉ "'\"`[];".toList := by decide
    have hcolon : isSpace ':' = false ∧ ':' ∉ "'\"`[];".toList := by decide
    change (∀ c ∈ 'v' :: ':' :: cellText value, _) ↔ _
    rw [List.forall_mem_cons, List.forall_mem_cons, and_iff_right hv, and_iff_right hcolon]
  exact and_congr hchars (forall₂_congr fun mark h => not_congr (hmarks mark h))

/-- The series is read: it raises nothing, and has one entry for each bucket that is derived. -/
def Charted : Prop :=
  ∃ buckets series, resolveBuckets env ds d.dimension = .ok buckets ∧
    bucketedSeries env ds d.dimension filters = .ok series ∧
    series.map Bar.key = buckets.map Bucket.key

theorem charted_iff_aliases (hlimit : -1 ≤ d.auto.effectiveLimit) : Charted env d filters ↔
    ∀ value ∈ topValues env ds d, env.aliasAllowed (valueKey value) = true := by
  have hknown : ¬d.dimension.field ∉ ds.columnNames := not_not.mpr d.known
  rw [← aliases_autoBuckets_iff, Charted, bucketedSeries, if_neg hknown,
    resolveBuckets_eq env d hlimit]
  by_cases h : ((autoBuckets env ds d).all fun b => env.aliasAllowed b.key) = true
  · refine iff_of_true ⟨_, _, rfl, if_pos h, ?_⟩ h
    rw [List.map_map]
    rfl
  · refine iff_of_false ?_ h
    rintro ⟨buckets, series, -, hseries, -⟩
    simp only [bind, Except.bind, if_neg h] at hseries
    cases hseries

/-- The dimension of a field with `auto` true. -/
def autoTrue (ds : Dataset Row) (field : Str) (known : field ∈ ds.columnNames) : AutoDimension ds where
  field := field
  auto := {}
  known := known

/-- A database that sorts NULLs first, with Django's rule for aliases. -/
def djangoEnv : Env where
  unicode := Unicode.ascii
  today := ⟨0, 1, 1⟩
  fromIso _ := none
  collate a b := a.isNone || b.isSome
  aliasAllowed text := decide (Plain text)
  other_allowed := by decide

/-- Two calls by the queue that took them. -/
def queueLog : Dataset (Option Str) where
  source := [some "Phone".toList, some "Voice Mail".toList]
  columns := [("queue".toList, "text".toList)]
  filterable := none
  kind _ := .other
  holds _ _ := true
  cell row _ := row

end CwStation.Datasets
