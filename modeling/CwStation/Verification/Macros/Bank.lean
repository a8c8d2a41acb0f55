import CwStation.Model.Macros

/-! # What the tag bank keeps

Names are unique and never reserved, and every tag has a value. -/

namespace CwStation.Macros

variable {u : Unicode} {bank bank' : Bank} {draft : Draft} {request : VarRequest}

/-- The rows of a bank are as the checks of `station_vars` leave them. -/
structure Bank.Good (bank : Bank) : Prop where
  pks : (bank.vars.map CWVariable.pk).Nodup
  fresh : ∀ var ∈ bank.vars, var.pk < bank.nextPk
  names : (bank.vars.map CWVariable.name).Nodup
  free : ∀ var ∈ bank.vars, var.name ∉ reserved
  values : ∀ var ∈ bank.vars, var.value ≠ []

theorem good_empty : Bank.Good {} :=
  ⟨List.nodup_nil, by simp, List.nodup_nil, by simp, by simp⟩

/-! ## Edits -/

/-- A row that may be saved. -/
structure Draft.Ready (bank : Bank) (draft : Draft) : Prop where
  known : ∀ pk, draft.pk = some pk → pk ∈ bank.vars.map CWVariable.pk
  unique : ∀ var ∈ bank.vars, some var.pk ≠ draft.pk → var.name ≠ draft.name
  free : draft.name ∉ reserved
  value : draft.value ≠ []

/-- The row an edit starts from. -/
structure Draft.Sound (bank : Bank) (draft : Draft) : Prop where
  known : ∀ pk, draft.pk = some pk → pk ∈ bank.vars.map CWVariable.pk
  unique : draft.name ≠ [] → ∀ var ∈ bank.vars, some var.pk ≠ draft.pk → var.name ≠ draft.name
  free : draft.name ∉ reserved

theorem Draft.Sound.setName {name : Option Str} {draft' : Draft} (h : draft.Sound bank)
    (hset : draft.setName u bank name = .ok draft') : draft'.Sound bank := by
  cases name with
  | none =>
    cases hset
    exact h
  | some name =>
    simp only [Draft.setName] at hset
    split at hset
    · cases hset
    · split at hset
      · cases hset
      · rename_i hfree
        split at hset
        · cases hset
        · rename_i hclash
          cases hset
          refine ⟨h.known, fun _ var hvar hpk hname => hclash ?_, hfree⟩
          rw [List.any_eq_true]
          exact ⟨var, hvar, by simp [hname, hpk]⟩

theorem Draft.Sound.setValue {value : Option Str} {draft' : Draft} (h : draft.Sound bank)
    (hset : draft.setValue value = .ok draft') : draft'.Sound bank := by
  cases value with
  | none =>
    cases hset
    exact h
  | some value =>
    simp only [Draft.setValue] at hset
    split at hset
    · cases hset
    · cases hset
      exact ⟨h.known, h.unique, h.free⟩

/-- Saving a row of the bank in its place. -/
theorem Bank.Good.update (hg : bank.Good) {pk : ℕ} (hpk : draft.pk = some pk)
    (h : draft.Ready bank) : (bank.save draft).Good := by
  have hsave : bank.save draft = { bank with vars := bank.vars.map fun var =>
      if var.pk = pk then ⟨pk, draft.name, draft.value, draft.order⟩ else var } := by
    rw [Bank.save, hpk]
  have hmem : ∀ var ∈ (bank.save draft).vars, var = ⟨pk, draft.name, draft.value, draft.order⟩ ∨
      var ∈ bank.vars ∧ var.pk ≠ pk := by
    intro var hvar
    rw [hsave] at hvar
    obtain ⟨old, hold, rfl⟩ := List.mem_map.mp hvar
    by_cases heq : old.pk = pk
    · exact .inl (if_pos heq)
    · rw [if_neg heq]
      exact .inr ⟨hold, heq⟩
  have hpks : (bank.save draft).vars.map CWVariable.pk = bank.vars.map CWVariable.pk := by
    rw [hsave, List.map_map]
    apply List.map_congr_left
    intro var _
    change (if var.pk = pk then (⟨pk, draft.name, draft.value, draft.order⟩ : CWVariable) else var).pk = _
    split
    · rename_i heq
      exact heq.symm
    · rfl
  have hnext : (bank.save draft).nextPk = bank.nextPk := by rw [hsave]
  refine ⟨hpks ▸ hg.pks, ?_, ?_, ?_, ?_⟩
  · intro var hvar
    have hold : var.pk ∈ bank.vars.map CWVariable.pk := hpks ▸ List.mem_map_of_mem hvar
    obtain ⟨old, hold, hsame⟩ := List.mem_map.mp hold
    rw [hnext, ← hsame]
    exact hg.fresh old hold
  · rw [hsave, List.map_map, List.nodup_iff_pairwise_ne, List.pairwise_map]
    have hboth := (List.pairwise_map.mp hg.names).and (List.pairwise_map.mp hg.pks)
    refine hboth.imp_of_mem fun {a b} ha hb hne => ?_
    simp only [Function.comp]
    split <;> split
    · rename_i hapk hbpk
      exact absurd (hapk.trans hbpk.symm) hne.2
    · rename_i hbpk
      exact (h.unique b hb (by rw [hpk]; simpa using hbpk)).symm
    · rename_i hapk _
      exact h.unique a ha (by rw [hpk]; simpa using hapk)
    · exact hne.1
  · intro var hvar
    rcases hmem var hvar with rfl | ⟨hold, _⟩
    · exact h.free
    · exact hg.free var hold
  · intro var hvar
    rcases hmem var hvar with rfl | ⟨hold, _⟩
    · exact h.value
    · exact hg.values var hold

/-- Saving a new row behind the others. -/
theorem Bank.Good.insert (hg : bank.Good) (hpk : draft.pk = none) (h : draft.Ready bank) :
    (bank.save draft).Good := by
  have hsave : bank.save draft =
      { vars := bank.vars ++ [⟨bank.nextPk, draft.name, draft.value, draft.order⟩]
        nextPk := bank.nextPk + 1 } := by rw [Bank.save, hpk]
  rw [hsave]
  refine ⟨?_, ?_, ?_, ?_, ?_⟩
  · rw [List.map_append, List.nodup_append]
    refine ⟨hg.pks, List.nodup_singleton _, ?_⟩
    intro pk hold pk' hnew heq
    obtain ⟨var, hvar, rfl⟩ := List.mem_map.mp hold
    have hlt := hg.fresh var hvar
    have hsame : pk' = bank.nextPk := List.mem_singleton.mp hnew
    omega
  · intro var hvar
    rcases List.mem_append.mp hvar with hvar | hvar
    · exact (hg.fresh var hvar).trans (Nat.lt_succ_self _)
    · rw [List.mem_singleton.mp hvar]
      exact Nat.lt_succ_self _
  · rw [List.map_append, List.nodup_append]
    refine ⟨hg.names, List.nodup_singleton _, ?_⟩
    intro name hold name' hnew heq
    obtain ⟨var, hvar, rfl⟩ := List.mem_map.mp hold
    have hsame : name' = draft.name := List.mem_singleton.mp hnew
    exact h.unique var hvar (by rw [hpk]; simp) (heq.trans hsame)
  · intro var hvar
    rcases List.mem_append.mp hvar with hvar | hvar
    · exact hg.free var hvar
    · rw [List.mem_singleton.mp hvar]
      exact h.free
  · intro var hvar
    rcases List.mem_append.mp hvar with hvar | hvar
    · exact hg.values var hvar
    · rw [List.mem_singleton.mp hvar]
      exact h.value

theorem Bank.Good.delete (hg : bank.Good) (q : CWVariable → Bool) :
    Bank.Good { bank with vars := bank.vars.filter q } := by
  have hsub : (bank.vars.filter q).Sublist bank.vars := List.filter_sublist
  exact ⟨hg.pks.sublist (hsub.map _), fun var hvar => hg.fresh var (hsub.subset hvar),
    hg.names.sublist (hsub.map _), fun var hvar => hg.free var (hsub.subset hvar),
    fun var hvar => hg.values var (hsub.subset hvar)⟩

theorem Bank.Good.save (hg : bank.Good) (h : draft.Ready bank) : (bank.save draft).Good := by
  cases hpk : draft.pk with
  | none => exact hg.insert hpk h
  | some pk => exact hg.update hpk h

theorem Bank.Good.edit (hg : bank.Good) (h : draft.Sound bank)
    (hedit : bank.edit u draft request = .ok bank') : bank'.Good := by
  unfold Bank.edit at hedit
  cases hname : draft.setName u bank request.name with
  | error e =>
    rw [hname] at hedit
    cases hedit
  | ok named =>
    simp only [hname, bind, Except.bind] at hedit
    cases hvalue : named.setValue request.value with
    | error e =>
      rw [hvalue] at hedit
      cases hedit
    | ok valued =>
      have hsound := (h.setName hname).setValue hvalue
      simp only [hvalue] at hedit
      split at hedit
      · cases hedit
      · rename_i hfull
        rw [not_or] at hfull
        cases hedit
        exact hg.save ⟨hsound.known, hsound.unique hfull.1, hsound.free, hfull.2⟩

theorem nil_not_reserved : [] ∉ reserved := by decide

/-- Every POST keeps the bank good. -/
theorem Bank.Good.next (hg : bank.Good) (request : VarRequest) : (bank.next u request).Good := by
  unfold Bank.next
  cases hpost : bank.post u request with
  | error e => exact hg
  | ok bank' =>
    dsimp only
    unfold Bank.post at hpost
    cases hid : request.id with
    | none =>
      rw [hid] at hpost
      refine hg.edit ⟨?_, fun hne => absurd rfl hne, nil_not_reserved⟩ hpost
      intro pk hpk
      cases hpk
    | some id =>
      rw [hid] at hpost
      dsimp only at hpost
      cases hfind : bank.vars.find? fun var => var.pk = id with
      | none =>
        rw [hfind] at hpost
        cases hpost
      | some var =>
        have hvar : var ∈ bank.vars := List.mem_of_find?_eq_some hfind
        rw [hfind] at hpost
        dsimp only at hpost
        split at hpost
        · cases hpost
          exact hg.delete _
        · refine hg.edit ⟨?_, ?_, hg.free var hvar⟩ hpost
          · intro pk hpk
            cases hpk
            exact List.mem_map_of_mem hvar
          · intro _ other hother hpk hname
            have hsame : other = var := List.inj_on_of_nodup_map hg.names hother hvar hname
            exact hpk (congrArg (some ·.pk) hsame)

theorem Bank.Good.banks (hg : bank.Good) (edits : List VarRequest) :
    ∀ b ∈ Macros.banks u bank edits, b.Good := by
  induction edits generalizing bank with
  | nil =>
    intro b hb
    rw [List.mem_singleton.mp hb]
    exact hg
  | cons request edits ih =>
    intro b hb
    rcases List.mem_cons.mp hb with rfl | hb
    · exact hg
    · exact ih (hg.next request) b hb

end CwStation.Macros
