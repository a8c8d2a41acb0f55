import CwStation.Model.CrudList
import CwStation.Verification.Python.Encoding
import CwStation.Verification.Python.Floats
import CwStation.Verification.Python.Strings
import Mathlib.Data.Nat.Cast.Order.Field

/-! # A walk over the pages of a list

The links of the list endpoint carry every parameter of the request and change `page` alone, so
that a client that follows them reads the pages one after the other. It reads each row once
if and only if no row is selected twice and no page boundary stands between equal keys. -/

namespace CwStation.Urlencoded.QueryDict

/-! ## Parameters -/

variable {q : QueryDict} {name other value : Str}

theorem getlist_set_of_ne (h : other ≠ name) : (q.set name value).getlist other = q.getlist other := by
  unfold QueryDict.set QueryDict.getlist
  by_cases hmem : name ∈ q.map Prod.fst
  · rw [if_pos hmem]
    clear hmem
    induction q with
    | nil => rfl
    | cons e q ih =>
      by_cases he : e.1 = name
      · have hskip : e.1 ≠ other := fun h' => h (h'.symm.trans he)
        simpa [he, h.symm, hskip] using ih
      · by_cases ho : e.1 = other
        · simpa [he, ho, h] using ih
        · simpa [he, ho] using ih
  · rw [if_neg hmem]
    simp [h.symm]

theorem get_set_of_ne (h : other ≠ name) : (q.set name value).get other = q.get other := by
  rw [QueryDict.get, QueryDict.get, getlist_set_of_ne h]

theorem names_set : (q.set name value).map Prod.fst =
    if name ∈ q.map Prod.fst then q.map Prod.fst else q.map Prod.fst ++ [name] := by
  unfold QueryDict.set
  by_cases hmem : name ∈ q.map Prod.fst
  · rw [if_pos hmem, if_pos hmem, List.map_map]
    apply List.map_congr_left
    intro e _
    by_cases he : e.1 = name
    · simp [he]
    · simp [he]
  · simp [if_neg hmem]

theorem mem_names_set : name ∈ (q.set name value).map Prod.fst := by
  rw [names_set]
  by_cases hmem : name ∈ q.map Prod.fst
  · rwa [if_pos hmem]
  · simp [if_neg hmem]

theorem nodup_set (h : (q.map Prod.fst).Nodup) : ((q.set name value).map Prod.fst).Nodup := by
  rw [names_set]
  by_cases hmem : name ∈ q.map Prod.fst
  · rwa [if_pos hmem]
  · rw [if_neg hmem]
    rw [← List.concat_eq_append]
    exact h.concat hmem

theorem set_set {later : Str} : (q.set name value).set name later = q.set name later := by
  rw [QueryDict.set, if_pos mem_names_set]
  unfold QueryDict.set
  by_cases hmem : name ∈ q.map Prod.fst
  · rw [if_pos hmem, if_pos hmem, List.map_map]
    apply List.map_congr_left
    intro e _
    by_cases he : e.1 = name
    · simp [he]
    · simp [he]
  · have hsame : (q.map fun e => if e.1 = name then (name, later) else e) = q := by
      conv_rhs => rw [← List.map_id q]
      apply List.map_congr_left
      intro e he
      rw [if_neg]
      · rfl
      · exact fun h => hmem (h ▸ List.mem_map_of_mem he)
    rw [if_neg hmem, if_neg hmem, List.map_append, hsame]
    simp

theorem get_of_mem {e : Str × Str} (h : (q.map Prod.fst).Nodup) (he : e ∈ q) : q.get e.1 = e.2 := by
  have hlist : q.getlist e.1 = [e.2] := by
    unfold QueryDict.getlist
    induction q with
    | nil => cases he
    | cons e' q ih =>
      rw [List.map_cons, List.nodup_cons] at h
      rcases List.mem_cons.mp he with rfl | he
      · have hnone : q.filter (fun entry => entry.1 = e.1) = [] := by
          rw [List.filter_eq_nil_iff]
          intro entry hentry hsame
          have hname : entry.1 = e.1 := by simpa using hsame
          exact h.1 (hname ▸ List.mem_map_of_mem hentry)
        simp [hnone]
      · have hskip : e'.1 ≠ e.1 := fun hname => h.1 (hname ▸ List.mem_map_of_mem he)
        simpa [hskip] using ih h.2 he
  rw [QueryDict.get, hlist]
  rfl

theorem get_set (h : (q.map Prod.fst).Nodup) : (q.set name value).get name = value := by
  have hmem : (name, value) ∈ q.set name value := by
    unfold QueryDict.set
    by_cases hname : name ∈ q.map Prod.fst
    · rw [if_pos hname]
      obtain ⟨e, he, hsame⟩ := List.mem_map.mp hname
      exact List.mem_map.mpr ⟨e, he, by simp [hsame]⟩
    · simp [if_neg hname]
  exact get_of_mem (nodup_set h) hmem

theorem eraseDups_of_nodup {names : List Str} (h : names.Nodup) : names.eraseDups = names := by
  induction names with
  | nil => rfl
  | cons a names ih =>
    rw [List.nodup_cons] at h
    have hkeep : names.filter (fun b => !b == a) = names := by
      rw [List.filter_eq_self]
      intro b hb
      have hne : b ≠ a := fun hba => h.1 (hba ▸ hb)
      simpa using hne
    rw [List.eraseDups_cons, hkeep, ih h.2]

/-- Where each name stands once, the items are the pairs. -/
theorem items_of_nodup (h : (q.map Prod.fst).Nodup) : q.items = q := by
  rw [QueryDict.items, eraseDups_of_nodup h, List.map_map]
  conv_rhs => rw [← List.map_id q]
  apply List.map_congr_left
  intro e he
  rw [Function.comp, get_of_mem h he]
  rfl

theorem filter_set {keep : Str → Bool} (h : keep name = true) :
    (q.set name value).filter (fun e => keep e.1) =
      QueryDict.set (q.filter fun e => keep e.1) name value := by
  have hnames : name ∈ (q.filter fun e => keep e.1).map Prod.fst ↔ name ∈ q.map Prod.fst := by
    constructor
    · intro hmem
      obtain ⟨e, he, rfl⟩ := List.mem_map.mp hmem
      exact List.mem_map_of_mem (List.mem_of_mem_filter he)
    · intro hmem
      obtain ⟨e, he, rfl⟩ := List.mem_map.mp hmem
      exact List.mem_map_of_mem (List.mem_filter.mpr ⟨he, h⟩)
  unfold QueryDict.set
  by_cases hmem : name ∈ q.map Prod.fst
  · rw [if_pos hmem, if_pos (hnames.mpr hmem), List.filter_map]
    congr 1
    apply List.filter_congr
    intro e _
    by_cases he : e.1 = name
    · simp [he]
    · simp [he]
  · rw [if_neg hmem, if_neg fun hno => hmem (hnames.mp hno), List.filter_append]
    simp [h]

end CwStation.Urlencoded.QueryDict

namespace CwStation.Crud

open Pages
open Urlencoded

/-! ## Page numbers -/

/-- Below the coarse floats a page is added for every begun one. -/
theorem covered_of_lt {n s : ℕ} (hs : 0 < s) (hn : n < 2 ^ 53) : n ≤ totalPages n s * s := by
  by_cases hone : n ≤ s
  · exact hone.trans (Nat.le_mul_of_pos_left s (by unfold totalPages; omega))
  · rw [not_le] at hone
    have hspos : (0 : ℚ) < s := by exact_mod_cast hs
    have hx : (1 : ℚ) ≤ n / s := by
      rw [le_div_iff₀ hspos, one_mul]
      exact_mod_cast hone.le
    -- the error of the division is below one part in `s`
    have herror : 1 / 2 * (2 : ℚ) ^ lastPlace (n / s) < 1 / s := by
      have hlog : (2 : ℚ) ^ Int.log 2 |((n : ℚ) / s)| ≤ n / s := by
        have habs : |((n : ℚ) / s)| = n / s := abs_of_nonneg (by positivity)
        have hlow := Int.zpow_log_le_self (b := 2) one_lt_two (show (0 : ℚ) < n / s by linarith)
        rw [habs]
        exact_mod_cast hlow
      have hplace : lastPlace ((n : ℚ) / s) = Int.log 2 |((n : ℚ) / s)| - 52 := by
        have hnonneg : 0 ≤ Int.log 2 |((n : ℚ) / s)| := by
          rw [abs_of_nonneg (by positivity)]
          rw [Int.log_of_one_le_right _ hx]
          exact Int.natCast_nonneg _
        unfold lastPlace
        omega
      have hnq : (n : ℚ) < 2 ^ 53 := by exact_mod_cast hn
      rw [hplace, zpow_sub₀ two_ne_zero]
      calc 1 / 2 * ((2 : ℚ) ^ Int.log 2 |((n : ℚ) / s)| / 2 ^ (52 : ℤ))
          ≤ 1 / 2 * (n / s / 2 ^ (52 : ℤ)) := by gcongr
        _ = n / 2 ^ 53 / s := by norm_num; ring
        _ < 1 / s := by
            apply div_lt_div_of_pos_right _ hspos
            rw [div_lt_one (by positivity)]
            exact hnq
    have hlow : ((n : ℚ) - 1) / s < nearestFloat (n / s) := by
      have hclose := abs_le.mp (abs_nearestFloat_sub ((n : ℚ) / s))
      rw [sub_div]
      linarith [hclose.1]
    have hfull : (((n - 1) / s : ℕ) : ℚ) ≤ ((n : ℚ) - 1) / s := by
      have hcast : ((n : ℚ) - 1) / s = ((n - 1 : ℕ) : ℚ) / s := by
        rw [Nat.cast_sub (by omega), Nat.cast_one]
      rw [hcast]
      exact Nat.cast_div_le
    have hceil : (n - 1) / s < ⌈nearestFloat ((n : ℚ) / s)⌉₊ :=
      Nat.lt_ceil.mpr (hfull.trans_lt hlow)
    have hpages : (n - 1) / s + 1 ≤ totalPages n s := by
      unfold totalPages
      omega
    calc n ≤ ((n - 1) / s + 1) * s := by
          have hdiv := Nat.div_add_mod (n - 1) s
          have hmod := Nat.mod_lt (n - 1) hs
          rw [Nat.add_mul, Nat.mul_comm]
          omega
      _ ≤ totalPages n s * s := Nat.mul_le_mul_right s hpages

theorem one_le_totalPages (n s : ℕ) : 1 ≤ totalPages n s := Nat.le_max_left _ _

/-- Page numbers are short enough for `int()`. -/
theorem totalPages_lt {n s : ℕ} (hs : 0 < s) (hn : n < 2 ^ 63) : totalPages n s < 10 ^ 20 := by
  have hspos : (1 : ℚ) ≤ s := by exact_mod_cast hs
  have hx : (0 : ℚ) ≤ n / s := by positivity
  have hxn : (n : ℚ) / s ≤ n := div_le_self (by positivity) hspos
  have hplace : (2 : ℚ) ^ lastPlace (n / s) ≤ 2 ^ (11 : ℤ) := by
    apply zpow_le_zpow_right₀ one_le_two
    by_cases hzero : (n : ℚ) / s = 0
    · simp [hzero, lastPlace]
    · apply lastPlace_le hzero _ (by norm_num)
      rw [abs_of_nonneg hx]
      have hnq : (n : ℚ) < 2 ^ 63 := by exact_mod_cast hn
      calc (n : ℚ) / s ≤ n := hxn
        _ < 2 ^ ((11 : ℤ) + 53) := hnq.trans (by norm_num)
  have hhigh : nearestFloat ((n : ℚ) / s) ≤ (2 ^ 64 : ℕ) := by
    have hclose := abs_le.mp (abs_nearestFloat_sub ((n : ℚ) / s))
    have hnq : (n : ℚ) < 2 ^ 63 := by exact_mod_cast hn
    push_cast
    norm_num at hplace
    linarith [hclose.2]
  have hceil : ⌈nearestFloat ((n : ℚ) / s)⌉₊ ≤ 2 ^ 64 := Nat.ceil_le.mpr hhigh
  unfold totalPages
  omega

theorem toLower_digit {c : Char} (h : c.isDigit = true) : c.toLower = c := by
  have hrange := toNat_of_isDigit h
  have hall : ∀ n, n < 58 → 48 ≤ n → (Char.ofNat n).toLower = Char.ofNat n := by decide
  have hlower := hall c.toNat (by omega) (by omega)
  rwa [Char.ofNat_toNat] at hlower

/-- A page number that is written out is read again. -/
theorem resolvePage_digits (u : Unicode) {k pages : ℕ} (hone : 1 ≤ k) (hk : k ≤ pages)
    (hpages : pages < 10 ^ 20) : resolvePage u (Nat.toDigits 10 k) pages none = k := by
  have hdigits : ∀ c ∈ Nat.toDigits 10 k, c.isDigit = true := fun c hc =>
    Nat.isDigit_of_mem_toDigits (by omega) (by omega) hc
  have hshort : (Nat.toDigits 10 k).length ≤ maxStrDigits := by
    have hlen := (Nat.length_toDigits_le_iff (by omega : 1 < 10) (by omega : 0 < 20)).mpr
      (hk.trans_lt hpages)
    exact hlen.trans (by decide)
  have hascii : ∀ c ∈ Nat.toDigits 10 k, c.toNat < 128 := by
    intro c hc
    have hrange := toNat_of_isDigit (hdigits c hc)
    omega
  have hlower : (Nat.toDigits 10 k).map Char.toLower = Nat.toDigits 10 k := by
    conv_rhs => rw [← List.map_id (Nat.toDigits 10 k)]
    exact List.map_congr_left fun c hc => toLower_digit (hdigits c hc)
  have hletters : ∀ entry ∈ pageAliases, entry.1.all Char.isDigit = false := by decide
  have hnone : pageAliases.lookup (u.lower (strip (Nat.toDigits 10 k))) = none := by
    rw [strip_of_digits hdigits, u.lower_ascii _ hascii, hlower, List.lookup_eq_none_iff]
    intro entry hentry
    rw [bne_iff_ne]
    rintro hsame
    obtain ⟨d, hd, hletter⟩ := List.all_eq_false.mp (hletters entry hentry)
    exact hletter (hdigits d (hsame ▸ hd))
  rw [resolvePage, hnone]
  simp only [pyInt_of_digits u hdigits Nat.toDigits_ne_nil hshort, Nat.ofDigitChars_ten_toDigits]
  omega

/-! ## Requests that differ in their page -/

section Requests

variable {ρ : Type} (cfg : CrudConfig ρ) (q : QueryDict) (v : Str)

theorem overrideFields_page {names : List Str} (h : pageParam ∉ names) (qs : QuerySet ρ) :
    overrideFields cfg (q.set pageParam v) qs names = overrideFields cfg q qs names := by
  induction names generalizing qs with
  | nil => rfl
  | cons name names ih =>
    rw [List.mem_cons, not_or] at h
    have hfield : overrideField cfg (q.set pageParam v) qs name = overrideField cfg q qs name := by
      unfold overrideField
      rw [QueryDict.get_set_of_ne (Ne.symm h.1), cfg.applyFilter_page]
    rw [overrideFields, overrideFields, hfield]
    simp only [ih h.2]

theorem mem_consumed {names : List Str} {qs : QuerySet ρ} {name : Str}
    (h : name ∈ (overrideFields cfg q qs names).2) : name ∈ names := by
  induction names generalizing qs with
  | nil => cases h
  | cons first names ih =>
    simp only [overrideFields] at h
    split_ifs at h with htaken
    · rcases List.mem_cons.mp h with rfl | h
      · exact .head _
      · exact .tail _ (ih h)
    · exact .tail _ (ih h)

theorem applyListFilter_page (qs : QuerySet ρ) :
    applyListFilter cfg (q.set pageParam v) qs = applyListFilter cfg q qs := by
  have hkeep : decide (pageParam ∉ (overrideFields cfg q qs cfg.filterFields).2) = true :=
    decide_eq_true fun h => cfg.filterFields_page (mem_consumed cfg q h)
  unfold applyListFilter
  simp only [overrideFields_page cfg q v cfg.filterFields_page]
  rw [@QueryDict.filter_set q pageParam v
    (fun name => decide (name ∉ (overrideFields cfg q qs cfg.filterFields).2)) hkeep,
    cfg.filterset_page]

theorem listed_page : listed cfg (q.set pageParam v) = listed cfg q := by
  have hget : ∀ {name : Str}, name ≠ pageParam → (q.set pageParam v).get name = q.get name :=
    QueryDict.get_set_of_ne
  have hsearch : ∀ qs, applyListSearch cfg (q.set pageParam v) qs = applyListSearch cfg q qs := by
    intro qs
    unfold applyListSearch
    rw [hget (by decide)]
  have hordering : ∀ qs, applyListOrdering cfg (q.set pageParam v) qs =
      applyListOrdering cfg q qs := by
    intro qs
    unfold applyListOrdering
    rw [hget (by decide)]
  unfold listed
  simp only [cfg.listQueryset_page, hsearch, applyListFilter_page, hordering,
    cfg.aggregationError_page]
  rw [hget (by decide)]

theorem pageSizeOf_page (u : Unicode) (default : ℕ) :
    pageSizeOf u (q.set pageParam v) default = pageSizeOf u q default := by
  unfold pageSizeOf
  rw [QueryDict.get_set_of_ne (by decide)]

theorem pageUrl_page (n : ℕ) : pageUrl cfg (q.set pageParam v) n = pageUrl cfg q n := by
  rw [pageUrl, pageUrl, QueryDict.set_set]

/-- The parameters of a link are those of the request, with another page. -/
theorem queryOf_pageUrl (honce : (q.map Prod.fst).Nodup) (n : ℕ) :
    queryOf (pageUrl cfg q n) = q.set pageParam (Nat.toDigits 10 n) := by
  have hpath : ∀ c ∈ cfg.path, decide (c ≠ '?') = true := fun c hc =>
    decide_eq_true fun h => cfg.path_plain (h ▸ hc)
  rw [queryOf, pageUrl, List.dropWhile_append_of_pos hpath]
  simp only [ne_eq, not_true_eq_false, decide_false, Bool.false_eq_true, not_false_eq_true,
    List.dropWhile_cons_of_neg, List.drop_succ_cons, List.drop_zero]
  rw [parseQsl_urlencode, QueryDict.items_of_nodup (QueryDict.nodup_set honce)]

end Requests

/-! ## Walks -/

section Walks

variable {ρ : Type} {cfg : CrudConfig ρ} {u : Unicode} {q : QueryDict} {qs : QuerySet ρ}

/-- The page size of a request. -/
def pageSize (cfg : CrudConfig ρ) (u : Unicode) (q : QueryDict) : ℕ :=
  pageSizeOf u q (defaultSize cfg)

theorem pageSize_pos : 0 < pageSize cfg u q := by
  have hdefault : 0 < defaultSize cfg := by
    unfold defaultSize
    split
    · exact Nat.succ_pos _
    · decide
  unfold pageSize pageSizeOf
  dsimp only
  split_ifs with hraw
  · exact hdefault
  · split
    · omega
    · exact hdefault

/-- A request of the walk that starts with `q`: it selects the same rows, and its page is `k`. -/
structure OnWalk (cfg : CrudConfig ρ) (u : Unicode) (q : QueryDict) (qs : QuerySet ρ)
    (q' : QueryDict) (k : ℕ) : Prop where
  listed : listed cfg q' = .ok qs
  size : pageSizeOf u q' (defaultSize cfg) = pageSize cfg u q
  url : ∀ n, pageUrl cfg q' n = pageUrl cfg q n
  page : resolvePage u (rawPage q') (totalPages qs.rows.length (pageSize cfg u q)) none = k

theorem onWalk_set (hlisted : listed cfg q = .ok qs) (honce : (q.map Prod.fst).Nodup) {k : ℕ}
    (hone : 1 ≤ k) (hk : k ≤ totalPages qs.rows.length (pageSize cfg u q)) :
    OnWalk cfg u q qs (q.set pageParam (Nat.toDigits 10 k)) k where
  listed := (listed_page cfg q _).trans hlisted
  size := pageSizeOf_page q _ u _
  url := pageUrl_page cfg q _
  page := by
    rw [rawPage, if_pos QueryDict.mem_names_set, QueryDict.get_set honce]
    exact resolvePage_digits u hone hk (totalPages_lt pageSize_pos qs.few)

theorem OnWalk.apiList {q' : QueryDict} {k : ℕ} (h : OnWalk cfg u q qs q' (k + 1))
    (db : Database ρ) :
    ∃ info, Crud.apiList cfg u db q' = .page (Pages.page (pageSize cfg u q) k (db.run qs)) info ∧
      info.next = if k + 1 < totalPages qs.rows.length (pageSize cfg u q)
        then some (pageUrl cfg q (k + 2)) else none := by
  unfold Crud.apiList
  rw [h.listed]
  unfold paginate
  simp only [h.size, h.page, h.url]
  exact ⟨_, rfl, rfl⟩

theorem OnWalk.walk_iff {dbs : ℕ → Database ρ} {q' : QueryDict} {k m : ℕ} {visited : List ρ}
    (h : OnWalk cfg u q qs q' (k + 1)) (honce : (q.map Prod.fst).Nodup)
    (hlisted : Crud.listed cfg q = .ok qs)
    (hm : k + (m + 1) = totalPages qs.rows.length (pageSize cfg u q)) :
    Walk cfg u dbs k q' visited ↔ visited = (List.range (m + 1)).flatMap fun j =>
      Pages.page (pageSize cfg u q) (k + j) ((dbs (k + j)).run qs) := by
  induction m generalizing k q' visited with
  | zero =>
    obtain ⟨info, hpage, hnext⟩ := h.apiList (dbs k)
    rw [if_neg (by omega)] at hnext
    have hvisited : (List.range (0 + 1)).flatMap (fun j =>
        Pages.page (pageSize cfg u q) (k + j) ((dbs (k + j)).run qs)) =
        Pages.page (pageSize cfg u q) k ((dbs k).run qs) := by
      simp
    rw [hvisited]
    constructor
    · intro hwalk
      cases hwalk with
      | last hresponse hnone =>
        rw [hpage] at hresponse
        cases hresponse
        rfl
      | next hresponse hsome _ =>
        rw [hpage] at hresponse
        cases hresponse
        rw [hnext] at hsome
        cases hsome
    · rintro rfl
      exact .last hpage hnext
  | succ m ih =>
    obtain ⟨info, hpage, hnext⟩ := h.apiList (dbs k)
    rw [if_pos (by omega)] at hnext
    have hfollow := onWalk_set (u := u) hlisted honce (Nat.le_add_left 1 (k + 1)) (by omega)
    have hrest : ∀ more, Walk cfg u dbs (k + 1) (q.set pageParam (Nat.toDigits 10 (k + 1 + 1))) more ↔
        more = (List.range (m + 1)).flatMap fun j =>
          Pages.page (pageSize cfg u q) (k + 1 + j) ((dbs (k + 1 + j)).run qs) :=
      fun more => ih hfollow (by omega)
    have hurl : queryOf (pageUrl cfg q (k + 1 + 1)) =
        q.set pageParam (Nat.toDigits 10 (k + 1 + 1)) := queryOf_pageUrl cfg q honce _
    have hvisited : (List.range (m + 1 + 1)).flatMap (fun j =>
        Pages.page (pageSize cfg u q) (k + j) ((dbs (k + j)).run qs)) =
        Pages.page (pageSize cfg u q) k ((dbs k).run qs) ++
          (List.range (m + 1)).flatMap fun j =>
            Pages.page (pageSize cfg u q) (k + 1 + j) ((dbs (k + 1 + j)).run qs) := by
      rw [List.range_succ_eq_map, List.flatMap_cons, List.flatMap_map]
      simp only [Nat.add_zero, Nat.succ_eq_add_one, Nat.add_assoc, Nat.add_comm 1]
    rw [hvisited]
    constructor
    · intro hwalk
      cases hwalk with
      | last hresponse hnone =>
        rw [hpage] at hresponse
        cases hresponse
        rw [hnext] at hnone
        cases hnone
      | next hresponse hsome hlater =>
        rw [hpage] at hresponse
        cases hresponse
        rw [hnext] at hsome
        cases hsome
        rw [hurl] at hlater
        rw [(hrest _).mp hlater]
    · rintro rfl
      refine .next hpage hnext ?_
      rw [hurl]
      exact (hrest _).mpr rfl

/-- What a client reads that starts with the first page. -/
theorem walk_iff (hlisted : listed cfg q = .ok qs) (honce : (q.map Prod.fst).Nodup)
    (hfirst : resolvePage u (rawPage q) (totalPages qs.rows.length (pageSize cfg u q)) none = 1)
    (dbs : ℕ → Database ρ) (visited : List ρ) :
    Walk cfg u dbs 0 q visited ↔
      visited = (List.range (totalPages qs.rows.length (pageSize cfg u q))).flatMap fun k =>
        page (pageSize cfg u q) k ((dbs k).run qs) := by
  obtain ⟨m, hm⟩ := Nat.exists_eq_add_of_le (one_le_totalPages qs.rows.length (pageSize cfg u q))
  have hstart : OnWalk cfg u q qs q (0 + 1) := ⟨hlisted, rfl, fun _ => rfl, hfirst⟩
  have hpages : 0 + (m + 1) = totalPages qs.rows.length (pageSize cfg u q) := by omega
  rw [hstart.walk_iff honce hlisted hpages, ← hpages]
  simp only [Nat.zero_add]

/-- A request for page 1 gets page 1. -/
theorem resolvePage_one (h : rawPage q = ['1']) :
    resolvePage u (rawPage q) (totalPages qs.rows.length (pageSize cfg u q)) none = 1 := by
  have hdigits : Nat.toDigits 10 1 = ['1'] := rfl
  rw [h, ← hdigits]
  exact resolvePage_digits u le_rfl (one_le_totalPages _ _) (totalPages_lt pageSize_pos qs.few)

/-! ## Every row once -/

/-- A database may answer with any arrangement. -/
theorem exists_database {arr : List ρ} (h : Arranged qs.order qs.rows arr) :
    ∃ db : Database ρ, db.run qs = arr := by
  classical
  refine ⟨⟨fun qs' => if qs' = qs then arr else arrange qs'.order qs'.rows, fun qs' => ?_⟩, ?_⟩
  · by_cases hsame : qs' = qs
    · subst hsame
      rw [if_pos rfl]
      exact h
    · rw [if_neg hsame]
      exact arranged_arrange _ _
  · exact if_pos rfl

variable [DecidableEq ρ]

/-- Whatever orders the database picks, the client comes to an end and has each row that matches
exactly once. -/
def EveryRowOnce (cfg : CrudConfig ρ) (u : Unicode) (q : QueryDict) (qs : QuerySet ρ) : Prop :=
  ∀ dbs : ℕ → Database ρ, ∃ visited, Walk cfg u dbs 0 q visited ∧ visited.Perm qs.rows.dedup

theorem everyRowOnce_iff_pages (hlisted : listed cfg q = .ok qs) (honce : (q.map Prod.fst).Nodup)
    (hfirst : resolvePage u (rawPage q) (totalPages qs.rows.length (pageSize cfg u q)) none = 1) :
    EveryRowOnce cfg u q qs ↔
      ∀ arrs : ℕ → List ρ, (∀ k, Arranged qs.order qs.rows (arrs k)) →
        ((List.range (totalPages qs.rows.length (pageSize cfg u q))).flatMap fun k =>
          page (pageSize cfg u q) k (arrs k)).Perm qs.rows.dedup := by
  constructor
  · intro h arrs harrs
    choose dbs hdbs using fun k => exists_database (harrs k)
    obtain ⟨visited, hwalk, hperm⟩ := h dbs
    rw [(walk_iff hlisted honce hfirst dbs visited).mp hwalk] at hperm
    simpa only [hdbs] using hperm
  · intro h dbs
    exact ⟨_, (walk_iff hlisted honce hfirst dbs _).mpr rfl,
      h (fun k => (dbs k).run qs) fun k => (dbs k).arranged qs⟩

theorem everyRowOnce_covered (hlisted : listed cfg q = .ok qs) (honce : (q.map Prod.fst).Nodup)
    (hfirst : resolvePage u (rawPage q) (totalPages qs.rows.length (pageSize cfg u q)) none = 1)
    (hcovered : qs.rows.length ≤ totalPages qs.rows.length (pageSize cfg u q) * pageSize cfg u q) :
    EveryRowOnce cfg u q qs ↔ qs.rows.Nodup ∧ Untied qs.order qs.rows (pageSize cfg u q) :=
  (everyRowOnce_iff_pages hlisted honce hfirst).trans (pages_perm_dedup_iff hcovered)

/-- Where the last page is missing, so are its rows. -/
theorem not_everyRowOnce (hlisted : listed cfg q = .ok qs) (honce : (q.map Prod.fst).Nodup)
    (hfirst : resolvePage u (rawPage q) (totalPages qs.rows.length (pageSize cfg u q)) none = 1)
    (hshort : totalPages qs.rows.length (pageSize cfg u q) * pageSize cfg u q < qs.rows.length)
    (hnodup : qs.rows.Nodup) : ¬EveryRowOnce cfg u q qs := by
  intro h
  have hperm := (everyRowOnce_iff_pages hlisted honce hfirst).mp h
    (fun _ => arrange qs.order qs.rows) fun _ => arranged_arrange _ _
  have hsplit := pages_split (s := pageSize cfg u q)
    (le_refl (totalPages qs.rows.length (pageSize cfg u q))) (arrange qs.order qs.rows)
    (arrange qs.order qs.rows)
  simp only [ite_self, Nat.sub_self, Nat.zero_mul, List.take_zero, List.append_nil] at hsplit
  rw [hsplit, hnodup.dedup] at hperm
  have hlength := hperm.length_eq
  rw [List.length_take] at hlength
  omega

/-- A client that follows `next` has every row once just when no row is selected twice and no
page ends between rows with equal keys. Past the coarse floats a last page may be missing. -/
theorem everyRowOnce_iff (hlisted : listed cfg q = .ok qs) (honce : (q.map Prod.fst).Nodup)
    (hfirst : resolvePage u (rawPage q) (totalPages qs.rows.length (pageSize cfg u q)) none = 1) :
    (qs.rows.length ≤ totalPages qs.rows.length (pageSize cfg u q) * pageSize cfg u q →
      (EveryRowOnce cfg u q qs ↔ qs.rows.Nodup ∧ Untied qs.order qs.rows (pageSize cfg u q))) ∧
    (totalPages qs.rows.length (pageSize cfg u q) * pageSize cfg u q < qs.rows.length →
      qs.rows.Nodup → ¬EveryRowOnce cfg u q qs) ∧
    (qs.rows.length < 2 ^ 53 →
      qs.rows.length ≤ totalPages qs.rows.length (pageSize cfg u q) * pageSize cfg u q) :=
  ⟨everyRowOnce_covered hlisted honce hfirst, not_everyRowOnce hlisted honce hfirst,
    covered_of_lt pageSize_pos⟩

end Walks

/-! ## Two rows on two pages -/

def byNumber : WeakOrder ℕ where
  le a b := decide (a ≤ b)
  total a b := by simpa using Nat.le_total a b
  trans a b c := by simpa using Nat.le_trans

def twoRows (order : WeakOrder ℕ) : QuerySet ℕ := ⟨[1, 2], order, by simp⟩

/-- A model with two rows, whose `Meta.ordering` is the parameter. -/
def twoRowConfig (order : WeakOrder ℕ) : CrudConfig ℕ where
  path := "/api/notes/".toList
  listFields := ["title".toList]
  apiExtraFields := []
  column _ := none
  paginateBy := none
  exportFormats := []
  listQueryset _ := twoRows order
  searchFields := []
  icontains _ qs := qs
  filterFields := []
  hasFilterClass := false
  applyFilter _ _ _ _ := none
  filterset _ qs := .ok qs
  aggregationError _ _ := none
  path_plain := by decide
  listQueryset_page _ _ := rfl
  filterFields_page := by decide
  applyFilter_page _ _ _ _ _ := rfl
  filterset_page _ _ _ := rfl
  aggregationError_page _ _ _ := rfl

/-- `?page_size=1`. -/
def oneEach : QueryDict := [("page_size".toList, ['1'])]

theorem listed_twoRows (order : WeakOrder ℕ) :
    listed (twoRowConfig order) oneEach = .ok (twoRows order) := rfl

theorem pageSize_twoRows (order : WeakOrder ℕ) : pageSize (twoRowConfig order) .ascii oneEach = 1 := by
  change pageSizeOf .ascii oneEach 25 = 1
  decide

/-- Without `Meta.ordering` the two pages may hold the same row. -/
theorem unordered_pages_overlap :
    listed (twoRowConfig (.flat ℕ)) oneEach = .ok (twoRows (.flat ℕ)) ∧
      (oneEach.map Prod.fst).Nodup ∧ rawPage oneEach = ['1'] ∧
      ¬EveryRowOnce (twoRowConfig (.flat ℕ)) .ascii oneEach (twoRows (.flat ℕ)) := by
  refine ⟨rfl, by decide, by decide, ?_⟩
  have hpos : 0 < pageSize (twoRowConfig (.flat ℕ)) .ascii oneEach := pageSize_pos
  have hcovered : 2 ≤ totalPages 2 _ * pageSize (twoRowConfig (.flat ℕ)) .ascii oneEach :=
    covered_of_lt hpos (by norm_num)
  rw [everyRowOnce_covered (listed_twoRows _) (by decide) (resolvePage_one (by decide)) hcovered,
    pageSize_twoRows]
  rintro ⟨-, huntied⟩
  obtain ⟨front, back, hperm, hlength, hapart⟩ := huntied 1 one_pos (by decide)
  obtain ⟨a, rfl⟩ := List.length_eq_one_iff.mp hlength
  have hback : back.length = 1 := by
    have htotal := hperm.length_eq
    simp only [List.length_append, twoRows, List.length_cons, List.length_nil] at htotal
    omega
  obtain ⟨b, rfl⟩ := List.length_eq_one_iff.mp hback
  have hflat := hapart a (.head _) b (.head _)
  cases hflat

/-- With an ordering by number they hold both. -/
theorem ordered_pages_complete :
    EveryRowOnce (twoRowConfig byNumber) .ascii oneEach (twoRows byNumber) := by
  have h := everyRowOnce_iff (u := .ascii) (listed_twoRows byNumber) (by decide)
    (resolvePage_one (by decide))
  have hcovered := h.2.2 (by norm_num [twoRows])
  refine (h.1 hcovered).mpr ⟨by decide, ?_⟩
  rw [pageSize_twoRows]
  intro k hk hlt
  have hone : k = 1 := by
    simp only [twoRows, List.length_cons, List.length_nil] at hlt
    omega
  subst hone
  exact ⟨[1], [2], .rfl, rfl, by decide⟩

end CwStation.Crud
