import Mathlib.Data.List.Nodup

/-! # Tables with a key -/

namespace CwStation.Table

variable {ρ κ : Type} [DecidableEq κ] {key : ρ → κ} {l : List ρ} {k j : κ} {r : ρ}

/-- The row with a key. -/
def get (key : ρ → κ) (l : List ρ) (k : κ) : Option ρ := l.find? fun r => key r = k

/-- The update of the row with a key. -/
def alter (key : ρ → κ) (k : κ) (f : ρ → ρ) (l : List ρ) : List ρ :=
  l.map fun r => if key r = k then f r else r

/-- No two rows have one key. -/
def Unique (key : ρ → κ) (l : List ρ) : Prop := (l.map key).Nodup

theorem get_mem (h : get key l k = some r) : r ∈ l := List.mem_of_find?_eq_some h

theorem key_of_get (h : get key l k = some r) : key r = k := by
  have hp := List.find?_some h
  simpa using hp

theorem get_eq_none_iff : get key l k = none ↔ ∀ r ∈ l, key r ≠ k := by
  simp [get, List.find?_eq_none]

theorem get_isSome_iff : (get key l k).isSome ↔ ∃ r ∈ l, key r = k := by
  simp [get, List.find?_isSome]

theorem get_of_mem (hl : Unique key l) (hr : r ∈ l) : get key l (key r) = some r := by
  induction l with
  | nil => cases hr
  | cons x l ih =>
    rw [Unique, List.map_cons, List.nodup_cons] at hl
    rw [get, List.find?_cons]
    rcases List.mem_cons.mp hr with rfl | hr
    · simp
    · have hne : key x ≠ key r := fun he => hl.1 (he ▸ List.mem_map_of_mem hr)
      simpa [hne, get] using ih hl.2 hr

/-- Rows with one key are one row. -/
theorem Unique.eq_of_key (hl : Unique key l) {r r' : ρ} (hr : r ∈ l) (hr' : r' ∈ l)
    (h : key r = key r') : r = r' := by
  have hget := get_of_mem hl hr
  rw [h, get_of_mem hl hr'] at hget
  exact (Option.some.inj hget).symm

theorem get_append (r : ρ) : get key (l ++ [r]) k =
    (get key l k).or (if key r = k then some r else none) := by
  rw [get, List.find?_append]
  congr 1
  by_cases h : key r = k <;> simp [h]

/-- A row that was there is found as before. -/
theorem get_append_of_some (r' : ρ) (h : get key l k = some r) :
    get key (l ++ [r']) k = some r := by
  rw [get_append, h, Option.some_or]

theorem get_append_of_ne (r : ρ) (h : key r ≠ k) : get key (l ++ [r]) k = get key l k := by
  rw [get_append, if_neg h, Option.or_none]

theorem Unique.append (hl : Unique key l) (h : get key l (key r) = none) :
    Unique key (l ++ [r]) := by
  rw [Unique, List.map_append, List.map_singleton, List.nodup_append]
  refine ⟨hl, by simp, ?_⟩
  intro k hk k' hk' hkk
  rw [List.mem_singleton] at hk'
  obtain ⟨x, hx, rfl⟩ := List.mem_map.mp hk
  exact get_eq_none_iff.mp h x hx (hkk.trans hk')

section filter

variable {p : ρ → Bool}

theorem get_filter (h : ∀ r ∈ l, key r = k → p r = true) :
    get key (l.filter p) k = get key l k := by
  induction l with
  | nil => rfl
  | cons x l ih =>
    have hl := ih fun r hr => h r (List.mem_cons_of_mem _ hr)
    simp only [get, List.find?_filter, List.find?_cons] at hl ⊢
    by_cases hx : key x = k
    · simp [hx, h x List.mem_cons_self hx]
    · simpa [hx] using hl

/-- A row that is found and kept is found again. -/
theorem get_filter_of_some (h : get key l k = some r) (hr : p r = true) :
    get key (l.filter p) k = some r := by
  induction l with
  | nil => cases h
  | cons x l ih =>
    simp only [get, List.find?_filter, List.find?_cons] at h ih ⊢
    by_cases hx : key x = k
    · simp only [hx, decide_true, Option.some.injEq] at h
      subst h
      simp [hx, hr]
    · simp only [hx, decide_false] at h
      simpa [hx] using ih h

end filter

section alter

variable {f : ρ → ρ}

theorem get_map (hf : ∀ r, key (f r) = key r) : get key (l.map f) k = (get key l k).map f := by
  induction l with
  | nil => rfl
  | cons x l ih =>
    simp only [get, List.map_cons, List.find?_cons] at ih ⊢
    by_cases hx : key x = k
    · simp [hf, hx]
    · simp only [hf, hx, decide_false]
      exact ih

omit [DecidableEq κ] in
theorem Unique.map (hl : Unique key l) (hf : ∀ r, key (f r) = key r) : Unique key (l.map f) := by
  rw [Unique, List.map_map]
  exact (List.map_congr_left fun r _ => hf r) ▸ hl

theorem alter_id : alter key k id l = l := by
  rw [alter]
  nth_rewrite 2 [← List.map_id l]
  apply List.map_congr_left
  intro r hr
  by_cases hk : key r = k
  · rw [if_pos hk]
  · rw [if_neg hk]
    rfl

theorem key_alter (hf : ∀ r, key (f r) = key r) (r : ρ) :
    key (if key r = k then f r else r) = key r := by
  split
  · exact hf r
  · rfl

theorem Unique.alter (hl : Unique key l) (hf : ∀ r, key (f r) = key r) :
    Unique key (alter key k f l) :=
  hl.map (key_alter hf)

/-- An update may look at the rows with the key only. -/
theorem get_alter_of (hf : ∀ r, key r = k → key (f r) = k) :
    get key (alter key k f l) j = if j = k then (get key l k).map f else get key l j := by
  have hkeeps : ∀ r, key (if key r = k then f r else r) = key r := by
    intro r
    by_cases hr : key r = k
    · rw [if_pos hr, hf r hr, hr]
    · rw [if_neg hr]
  rw [Table.alter, get_map hkeeps]
  cases hget : get key l j with
  | none =>
    by_cases hj : j = k
    · subst hj
      simp [hget]
    · simp [hj]
  | some r =>
    have hkey := key_of_get hget
    by_cases hj : j = k
    · subst hj
      simp [hget, hkey]
    · simp [hkey, hj]

theorem get_alter (hf : ∀ r, key (f r) = key r) :
    get key (alter key k f l) j = if j = k then (get key l k).map f else get key l j :=
  get_alter_of fun r hr => (hf r).trans hr

/-- An update of one row goes by any key. -/
theorem alter_by {κ' : Type} [DecidableEq κ'] {key' : ρ → κ'} (hl : Unique key l)
    (hl' : Unique key' l) (hr : r ∈ l) (f : ρ → ρ) :
    alter key (key r) f l = alter key' (key' r) (fun _ => f r) l := by
  apply List.map_congr_left
  intro x hx
  by_cases hsame : x = r
  · rw [hsame, if_pos rfl, if_pos rfl]
  · rw [if_neg fun h => hsame (hl.eq_of_key hx hr h), if_neg fun h => hsame (hl'.eq_of_key hx hr h)]

/-- A row that takes its own place. -/
theorem alter_self (hl : Unique key l) (hr : r ∈ l) : alter key (key r) (fun _ => r) l = l :=
  (alter_by hl hl hr id).symm.trans alter_id

theorem mem_alter {r' : ρ} (h : r' ∈ alter key k f l) :
    ∃ r ∈ l, r' = if key r = k then f r else r := by
  obtain ⟨r, hr, rfl⟩ := List.mem_map.mp h
  exact ⟨r, hr, rfl⟩

/-- An update of rows that are not kept, before or after. -/
theorem filter_alter {p : ρ → Bool} (h : ∀ r ∈ l, key r = k → p r = false ∧ p (f r) = false) :
    (alter key k f l).filter p = l.filter p := by
  induction l with
  | nil => rfl
  | cons r l ih =>
    have hl := ih fun x hx => h x (List.mem_cons_of_mem r hx)
    rw [alter, List.map_cons, ← alter, List.filter_cons, List.filter_cons, hl]
    by_cases hkey : key r = k
    · obtain ⟨hbefore, hafter⟩ := h r List.mem_cons_self hkey
      simp [hkey, hbefore, hafter]
    · simp [hkey]

/-- An update after which no row counts that did not count before. -/
theorem countP_alter_le {p p' : ρ → Bool} (h : ∀ r, p' r = true → p r = true)
    (hf : ∀ r, p' (f r) = true → p r = true) : (alter key k f l).countP p' ≤ l.countP p := by
  rw [alter, List.countP_map]
  refine List.countP_mono_left fun r _ hr => ?_
  rw [Function.comp_apply] at hr
  split at hr
  · exact hf r hr
  · exact h r hr

end alter

/-- A loop that writes one row at a time, no two under one key, writes each from what was there
before the loop. -/
theorem get_foldlM {ε γ : Type} {write : List ρ → γ → Except ε (List ρ)} {at_ : γ → κ}
    {next : γ → Option ρ → ρ}
    (hwrite : ∀ l l' g, write l g = .ok l' → ∀ k,
      get key l' k = if k = at_ g then some (next g (get key l k)) else get key l k)
    {gs : List γ} (hgs : (gs.map at_).Nodup) {l' : List ρ} (h : gs.foldlM write l = .ok l') :
    (∀ g ∈ gs, get key l' (at_ g) = some (next g (get key l (at_ g)))) ∧
      ∀ k, k ∉ gs.map at_ → get key l' k = get key l k := by
  induction gs generalizing l with
  | nil =>
    rw [List.foldlM_nil] at h
    cases h
    constructor
    · intro g hg
      cases hg
    · intro k _
      rfl
  | cons g gs ih =>
    rw [List.map_cons, List.nodup_cons] at hgs
    rw [List.foldlM_cons] at h
    cases hfirst : write l g with
    | error e =>
      rw [hfirst] at h
      cases h
    | ok l₁ =>
      rw [hfirst] at h
      obtain ⟨hmem, hother⟩ := ih hgs.2 h
      have hget := hwrite l l₁ g hfirst
      constructor
      · intro g' hg'
        rcases List.mem_cons.mp hg' with rfl | hg'
        · rw [hother _ hgs.1, hget, if_pos rfl]
        · have hne : at_ g' ≠ at_ g := fun he => hgs.1 (he ▸ List.mem_map_of_mem hg')
          rw [hmem g' hg', hget, if_neg hne]
      · intro k hk
        rw [List.map_cons, List.mem_cons, not_or] at hk
        rw [hother k hk.2, hget, if_neg hk.1]

/-! ## Tables that number their rows -/

/-- A table whose primary keys are given in order. -/
@[ext]
structure Numbered (key : ρ → ℕ) where
  rows : List ρ
  next : ℕ
  unique : Unique key rows
  fresh : ∀ r ∈ rows, key r < next

namespace Numbered

variable {key : ρ → ℕ} {t : Numbered key} {k : ℕ} {f : ρ → ρ} {make : ℕ → ρ} {p q : ρ → Bool}

def insert (make : ℕ → ρ) (hmake : ∀ n, key (make n) = n) (t : Numbered key) : Numbered key where
  rows := t.rows ++ [make t.next]
  next := t.next + 1
  unique := t.unique.append <| by
    rw [hmake, get_eq_none_iff]
    exact fun r hr => Nat.ne_of_lt (t.fresh r hr)
  fresh r hr := by
    rcases List.mem_append.mp hr with hr | hr
    · exact Nat.lt_succ_of_lt (t.fresh r hr)
    · rw [List.mem_singleton.mp hr, hmake]
      exact Nat.lt_succ_self _

def save (k : ℕ) (f : ρ → ρ) (hf : ∀ r, key (f r) = key r) (t : Numbered key) : Numbered key where
  rows := alter key k f t.rows
  next := t.next
  unique := t.unique.alter hf
  fresh r hr := by
    obtain ⟨x, hx, rfl⟩ := mem_alter hr
    rw [key_alter hf]
    exact t.fresh x hx

omit [DecidableEq κ] in
/-- A save keeps another key unique that it does not write. -/
theorem unique_save {other : ρ → κ} (t : Numbered key) {hf : ∀ r, key (f r) = key r}
    (h : Unique other t.rows) (hother : ∀ r, other (f r) = other r) :
    Unique other (t.save k f hf).rows :=
  h.map fun r => by
    split
    · exact hother r
    · rfl

/-- Rows that an insertion is no row of stay. -/
theorem filter_insert_of_neg {hmake : ∀ n, key (make n) = n} (h : p (make t.next) = false) :
    (t.insert make hmake).rows.filter p = t.rows.filter p := by
  simp [insert, h]

theorem filter_insert_of_pos {hmake : ∀ n, key (make n) = n} (h : p (make t.next) = true) :
    (t.insert make hmake).rows.filter p = t.rows.filter p ++ [make t.next] := by
  simp [insert, h]

/-- A save keeps the other rows of a property in place. -/
theorem filter_save {hf : ∀ r, key (f r) = key r} (h : ∀ r, p (f r) = p r) :
    (t.save k f hf).rows.filter p = alter key k f (t.rows.filter p) := by
  change (t.rows.map fun r => if key r = k then f r else r).filter p = alter key k f (t.rows.filter p)
  rw [List.filter_map, alter]
  congr 1
  refine List.filter_congr fun r _ => ?_
  rw [Function.comp_apply]
  split
  · exact h r
  · rfl

/-- A save of the one row of a property. -/
theorem filter_save_of_eq {hf : ∀ r, key (f r) = key r} (h : ∀ r, p (f r) = p r) {r : ρ}
    (hr : t.rows.filter p = [r]) : (t.save (key r) f hf).rows.filter p = [f r] := by
  rw [filter_save h, hr]
  simp [alter]

/-- A save of a row that has not a property leaves those alone that have it. -/
theorem filter_save_of_neg {hf : ∀ r, key (f r) = key r} (h : ∀ r, p (f r) = p r) {r : ρ}
    (hr : r ∈ t.rows) (hneg : p r = false) : (t.save (key r) f hf).rows.filter p = t.rows.filter p := by
  rw [filter_save h]
  refine (List.map_congr_left fun x hx => ?_).trans (List.map_id _)
  obtain ⟨hmem, hpos⟩ := List.mem_filter.mp hx
  rw [if_neg, id_eq]
  intro hkey
  rw [t.unique.eq_of_key hmem hr hkey, hneg] at hpos
  cases hpos

/-- A save that writes what is there changes nothing. -/
theorem save_eq_self (hf : ∀ r, key (f r) = key r) {r : ρ} (hr : r ∈ t.rows) (h : f r = r) :
    t.save (key r) f hf = t := by
  refine Numbered.ext ((List.map_congr_left fun x hx => ?_).trans (List.map_id _)) rfl
  by_cases hkey : key x = key r
  · rw [if_pos hkey, t.unique.eq_of_key hx hr hkey, h, id_eq]
  · rw [if_neg hkey, id_eq]

/-- A save that changes no more than a projection hides. -/
theorem map_save {γ : Type} {content : ρ → γ} (hf : ∀ r, key (f r) = key r) {r : ρ} (hr : r ∈ t.rows)
    (h : content (f r) = content r) :
    (t.save (key r) f hf).rows.map content = t.rows.map content := by
  change (t.rows.map fun x => if key x = key r then f x else x).map content = t.rows.map content
  rw [List.map_map]
  refine List.map_congr_left fun x hx => ?_
  rw [Function.comp_apply]
  by_cases hkey : key x = key r
  · rw [if_pos hkey, t.unique.eq_of_key hx hr hkey, h]
  · rw [if_neg hkey]

/-! ### Get or create -/

theorem mem_of_filter_eq {l : List ρ} {r : ρ} (h : l.filter p = [r]) : r ∈ l ∧ p r = true :=
  List.mem_filter.mp (h ▸ List.mem_singleton_self r)

/-- The row of a property `p` is there now: the one row there was, as `f` writes it, or a new one.
The rows of `q`, which exclude those of `p`, are as before. -/
structure Adopted (p q : ρ → Bool) (f : ρ → ρ) (t : Numbered key) (r : ρ) (t' : Numbered key) :
    Prop where
  found : t'.rows.filter p = [r]
  kept : t'.rows.filter q = t.rows.filter q
  settled : t' = t ↔ ∃ r, t.rows.filter p = [r] ∧ f r = r

theorem adopted_insert (hmake : ∀ n, key (make n) = n) (hnone : t.rows.filter p = [])
    (hp : p (make t.next) = true) (hq : q (make t.next) = false) :
    Adopted p q f t (make t.next) (t.insert make hmake) := by
  have hfound : (t.insert make hmake).rows.filter p = [make t.next] := by
    rw [filter_insert_of_pos hp, hnone, List.nil_append]
  refine ⟨hfound, filter_insert_of_neg hq, fun heq => ?_, fun ⟨r, hr, _⟩ => ?_⟩
  · rw [heq, hnone] at hfound
    cases hfound
  · rw [hnone] at hr
    cases hr

theorem adopted_save (hf : ∀ r, key (f r) = key r) {r : ρ} (hone : t.rows.filter p = [r])
    (hp : ∀ r, p (f r) = p r) (hq : ∀ r, q (f r) = q r) (hpq : ∀ r, p r = true → q r = false) :
    Adopted p q f t (f r) (t.save (key r) f hf) := by
  obtain ⟨hmem, hr⟩ := mem_of_filter_eq hone
  have hfound : (t.save (key r) f hf).rows.filter p = [f r] := filter_save_of_eq hp hone
  refine ⟨hfound, filter_save_of_neg hq hmem (hpq r hr), fun heq => ⟨r, hone, ?_⟩, ?_⟩
  · rw [heq, hone] at hfound
    exact (List.cons.inj hfound).1.symm
  · rintro ⟨r', hr', hwritten⟩
    rw [hone] at hr'
    obtain rfl := (List.cons.inj hr').1
    exact save_eq_self hf hmem hwritten

end Numbered

end CwStation.Table
