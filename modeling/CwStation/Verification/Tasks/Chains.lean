import CwStation.Verification.Tasks.Programs

/-! # One retry per attempt

The rows of the queue form chains: first attempts, each with its retries in their order. -/

namespace CwStation.Tasks

open Table Threads

variable {cfg : Settings} {allowed : Pass → Prop} {w w' : World}

/-! ## Chains -/

/-- The attempts that start from `root`, in their order, within the budget. -/
structure IsChain (cfg : Settings) (w : World) (root : ResultId) (spec : TaskSpec)
    (chain : List ResultId) : Prop where
  head : chain.head? = some root
  first : ∃ t, w.task root = some t ∧ t.retryOf = none
  mem : ∀ id, id ∈ chain ↔ (w.task id).isSome ∧ (w.attemptInfo id).rootId = root
  info : ∀ k id, chain[k]? = some id →
    w.attemptInfo id = ⟨root, k + 1, (w.attemptInfo root).maxAttempts⟩
  link : ∀ k p id, chain[k]? = some p → chain[k + 1]? = some id →
    ∃ t, w.task id = some t ∧ t.retryOf = some p
  specs : ∀ id ∈ chain, ∀ t, w.task id = some t → t.spec = spec
  budget : (chain.length : ℤ) ≤
    max 1 (budgetOf cfg spec.taskPath (w.attemptInfo root).maxAttempts)

/-- Every row is in a chain, and a row that was retried has run. -/
structure Chained (cfg : Settings) (w : World) : Prop where
  parentRan : ∀ id t p, w.task id = some t → t.retryOf = some p →
    ∃ q, w.task p = some q ∧ q.ran = true
  chains : ∀ id, (w.task id).isSome →
    ∃ spec chain, IsChain cfg w (w.attemptInfo id).rootId spec chain

section chain

variable {root id : ResultId} {spec : TaskSpec} {chain : List ResultId}

/-- The row of a first attempt is at the head of its chain. -/
theorem IsChain.root_of_first (h : IsChain cfg w root spec chain) (hid : id ∈ chain)
    {t : TaskRow} (ht : w.task id = some t) (hfirst : t.retryOf = none) : id = root := by
  obtain ⟨k, hk⟩ := List.getElem?_of_mem hid
  cases k with
  | zero =>
    rw [← List.head?_eq_getElem?, h.head, Option.some.injEq] at hk
    exact hk.symm
  | succ k =>
    have hlt : k + 1 < chain.length := (List.getElem?_eq_some_iff.mp hk).1
    have hprev : chain[k]? = some chain[k] := List.getElem?_eq_getElem (by omega)
    obtain ⟨u, hu, hretry⟩ := h.link k _ _ hprev hk
    rw [ht, Option.some.injEq] at hu
    rw [← hu, hfirst] at hretry
    cases hretry

theorem IsChain.root_mem (h : IsChain cfg w root spec chain) : root ∈ chain :=
  List.mem_of_mem_head? h.head

/-- A first attempt without retries. -/
theorem isChain_singleton {t : TaskRow} {maxAttempts : Option ℕ} (ht : w.task root = some t)
    (hfirst : t.retryOf = none) (hinfo : w.attemptInfo root = ⟨root, 1, maxAttempts⟩)
    (hother : ∀ j, j ≠ root → (w.task j).isSome → (w.attemptInfo j).rootId ≠ root) :
    IsChain cfg w root t.spec [root] := by
  refine ⟨rfl, ⟨t, ht, hfirst⟩, ?_, ?_, ?_, ?_, le_max_left _ _⟩
  · intro j
    rw [List.mem_singleton]
    constructor
    · intro hj
      rw [hj, ht, hinfo]
      exact ⟨rfl, rfl⟩
    · rintro ⟨hsome, hj⟩
      by_contra hne
      exact hother j hne hsome hj
  · intro k j hj
    rw [List.getElem?_singleton] at hj
    split at hj
    · rename_i hk
      rw [Option.some.injEq] at hj
      rw [← hj, hk, hinfo]
    · cases hj
  · intro k p j hp hj
    simp at hj
  · intro j hj u hu
    rw [List.mem_singleton] at hj
    rw [hj, ht, Option.some.injEq] at hu
    rw [← hu]

/-! ## What chains depend on -/

/-- The row has the same place in its chain. -/
structure SameAt (w w' : World) (id : ResultId) : Prop where
  row : (w'.task id).map (fun t => (t.spec, t.retryOf)) =
    (w.task id).map fun t => (t.spec, t.retryOf)
  info : w'.attemptInfo id = w.attemptInfo id

theorem SameAt.task (h : SameAt w w' id) {t' : TaskRow} (ht : w'.task id = some t') :
    ∃ t, w.task id = some t ∧ t.spec = t'.spec ∧ t.retryOf = t'.retryOf := by
  have hsame := h.row
  rw [ht, Option.map_some] at hsame
  obtain ⟨t, ht, hpair⟩ := Option.map_eq_some_iff.mp hsame.symm
  rw [Prod.mk.injEq] at hpair
  exact ⟨t, ht, hpair⟩

theorem SameAt.symm (h : SameAt w w' id) : SameAt w' w id := ⟨h.row.symm, h.info.symm⟩

theorem SameAt.isSome (h : SameAt w w' id) : (w'.task id).isSome = (w.task id).isSome := by
  have hsame := congrArg Option.isSome h.row
  simpa using hsame

/-- A chain whose rows keep their places stays, if no other row joins it. -/
theorem IsChain.frame (hchain : IsChain cfg w root spec chain) (hsame : ∀ j ∈ chain, SameAt w w' j)
    (hother : ∀ j, j ∉ chain → (w'.task j).isSome → (w'.attemptInfo j).rootId ≠ root) :
    IsChain cfg w' root spec chain := by
  have hroot := hsame root hchain.root_mem
  refine ⟨hchain.head, ?_, ?_, ?_, ?_, ?_, ?_⟩
  · obtain ⟨t, ht, hfirst⟩ := hchain.first
    obtain ⟨t', ht', -, hretry⟩ := hroot.symm.task ht
    exact ⟨t', ht', hretry.trans hfirst⟩
  · intro j
    constructor
    · intro hj
      rw [(hsame j hj).isSome, (hsame j hj).info]
      exact (hchain.mem j).mp hj
    · rintro ⟨hsome, hinfo⟩
      by_contra hj
      exact hother j hj hsome hinfo
  · intro k j hj
    rw [(hsame j (List.mem_of_getElem? hj)).info, hroot.info, hchain.info k j hj]
  · intro k p j hp hj
    obtain ⟨t, ht, hretry⟩ := hchain.link k p j hp hj
    obtain ⟨t', ht', -, hretry'⟩ := (hsame j (List.mem_of_getElem? hj)).symm.task ht
    exact ⟨t', ht', hretry'.trans hretry⟩
  · intro j hj t' ht'
    obtain ⟨t, ht, hspec, -⟩ := (hsame j hj).task ht'
    rw [← hspec]
    exact hchain.specs j hj t ht
  · rw [hroot.info]
    exact hchain.budget

end chain

theorem sameAt_alter (t : TaskRow) {f : TaskRow → TaskRow} (hf : ∀ t, (f t).id = t.id)
    (hspec : ∀ t, (f t).spec = t.spec) (hretry : ∀ t, (f t).retryOf = t.retryOf) (id : ResultId) :
    SameAt w (w.alterTask t.id f) id := by
  refine ⟨?_, rfl⟩
  rw [task_alterTask hf]
  split
  · rename_i hid
    rw [hid]
    cases w.task t.id <;> simp [hspec, hretry]
  · rfl

theorem sameAt_map {f : TaskAttempt → TaskAttempt} (htasks : w'.tasks = w.tasks)
    (hattempts : w'.attempts = w.attempts.map f) (hid : ∀ a, (f a).resultId = a.resultId)
    (hinfo : ∀ a, (f a).info = a.info) (id : ResultId) : SameAt w w' id := by
  constructor
  · rw [World.task, World.task, htasks]
  · rw [World.attemptInfo, World.attemptInfo, attemptOf_map hattempts hid]
    cases w.attemptOf id <;> simp [hinfo]

theorem sameAt_of_eq (htasks : w'.tasks = w.tasks) (hattempts : w'.attempts = w.attempts)
    (id : ResultId) : SameAt w w' id :=
  sameAt_map htasks (by rw [hattempts, List.map_id']) (fun _ => rfl) (fun _ => rfl) id

/-! ## Chains along a change -/

theorem Chained.same (hc : Chained cfg w) (hsame : ∀ j, SameAt w w' j) {id : ResultId}
    (hid : (w'.task id).isSome) :
    ∃ spec chain, IsChain cfg w' (w'.attemptInfo id).rootId spec chain := by
  rw [(hsame id).isSome] at hid
  obtain ⟨spec, chain, hchain⟩ := hc.chains id hid
  rw [(hsame id).info]
  refine ⟨spec, chain, hchain.frame (fun j _ => hsame j) ?_⟩
  intro j hj hsome hroot
  rw [(hsame j).isSome] at hsome
  rw [(hsame j).info] at hroot
  exact hj ((hchain.mem j).mpr ⟨hsome, hroot⟩)

/-- The root of a row is a first attempt that is there. -/
theorem Chained.root (hc : Chained cfg w) {id : ResultId} (hid : (w.task id).isSome) :
    ∃ t, w.task (w.attemptInfo id).rootId = some t ∧ t.retryOf = none := by
  obtain ⟨spec, chain, hchain⟩ := hc.chains id hid
  exact hchain.first

/-- A first attempt is its own root. -/
theorem Chained.info_of_first (hc : Chained cfg w) {t : TaskRow} (ht : w.task t.id = some t)
    (hfirst : t.retryOf = none) :
    w.attemptInfo t.id = ⟨t.id, 1, (w.attemptInfo t.id).maxAttempts⟩ := by
  obtain ⟨spec, chain, hchain⟩ := hc.chains t.id (by simp [ht])
  have hmem := (hchain.mem t.id).mpr ⟨by simp [ht], rfl⟩
  have hroot := hchain.root_of_first hmem ht hfirst
  have hhead : chain[0]? = some t.id := by rw [← List.head?_eq_getElem?, hchain.head, ← hroot]
  have hinfo := hchain.info 0 t.id hhead
  rw [← hroot] at hinfo
  exact hinfo

/-- A new first attempt is a chain of its own. -/
theorem Chained.enqueue (hl : Linked w) (hc : Chained cfg w) (t : TaskRow)
    (hnew : w.task t.id = none) (hfirst : t.retryOf = none) {id : ResultId}
    (hid : (World.task { w with tasks := w.tasks ++ [t] } id).isSome) :
    ∃ spec chain,
      IsChain cfg { w with tasks := w.tasks ++ [t] } (w.attemptInfo id).rootId spec chain := by
  have hinfo : w.attemptInfo t.id = ⟨t.id, 1, none⟩ := by
    apply attemptInfo_of_none
    by_contra hsome
    obtain ⟨a, ha⟩ := Option.ne_none_iff_exists'.mp hsome
    obtain ⟨u, hu, -⟩ := hl.recorded t.id a ha
    rw [hnew] at hu
    cases hu
  have htask : ∀ j, j ≠ t.id → World.task { w with tasks := w.tasks ++ [t] } j = w.task j :=
    fun j hj => get_append_of_ne t hj.symm
  have hown : World.task { w with tasks := w.tasks ++ [t] } t.id = some t := by
    rw [task_append rfl, hnew, Option.none_or, if_pos rfl]
  -- no row that was there has the new one as its root
  have hroot : ∀ j, (w.task j).isSome → (w.attemptInfo j).rootId ≠ t.id := by
    intro j hj he
    obtain ⟨u, hu, -⟩ := hc.root hj
    rw [he, hnew] at hu
    cases hu
  by_cases he : id = t.id
  · subst he
    rw [hinfo]
    refine ⟨t.spec, [t.id], isChain_singleton hown hfirst hinfo ?_⟩
    intro j hj hsome
    rw [htask j hj] at hsome
    exact hroot j hsome
  · rw [htask id he] at hid
    obtain ⟨spec, chain, hchain⟩ := hc.chains id hid
    have hne : ∀ j ∈ chain, j ≠ t.id := by
      intro j hj hjt
      have hsome := ((hchain.mem j).mp hj).1
      rw [hjt, hnew] at hsome
      cases hsome
    refine ⟨spec, chain, hchain.frame ?_ ?_⟩
    · exact fun j hj => ⟨by rw [htask j (hne j hj)], rfl⟩
    · intro j hj hsome hjroot
      by_cases hjt : j = t.id
      · have hjroot' : (w.attemptInfo j).rootId = (w.attemptInfo id).rootId := hjroot
        rw [hjt, hinfo] at hjroot'
        exact hroot id hid hjroot'.symm
      · rw [htask j hjt] at hsome
        exact hj ((hchain.mem j).mpr ⟨hsome, hjroot⟩)

theorem pin_tasks (id : ResultId) (n : ℕ) (now : Time) : (w.pin id n now).tasks = w.tasks := by
  unfold World.pin
  split <;> rfl

theorem pin_info (id : ResultId) (n : ℕ) (now : Time) (j : ResultId) :
    (w.pin id n now).attemptInfo j = if j = id then ⟨id, 1, some n⟩ else w.attemptInfo j := by
  cases ha : w.attemptOf id with
  | some a =>
    simp only [World.pin, ha, Option.isSome_some, if_true, World.attemptInfo]
    rw [attemptOf_alter rfl (by simp), ha]
    by_cases hj : j = id
    · simp [hj, TaskAttempt.info]
    · simp [hj]
  | none =>
    simp only [World.pin, ha, Option.isSome_none, Bool.false_eq_true, if_false, World.attemptInfo]
    rw [attemptOf_append rfl]
    by_cases hj : j = id
    · rw [if_pos hj, hj, ha]
      simp [TaskAttempt.info]
    · rw [if_neg hj, if_neg (Ne.symm hj), Option.or_none]

/-- A budget is pinned on a first attempt that has no retry yet. -/
theorem Chained.pin (hc : Chained cfg w) {t : TaskRow} (n : ℕ) (now : Time)
    (ht : w.task t.id = some t) (hran : t.ran = false) (hfirst : t.retryOf = none)
    {id : ResultId} (hid : (w.task id).isSome) :
    ∃ spec chain, IsChain cfg (w.pin t.id n now) ((w.pin t.id n now).attemptInfo id).rootId
      spec chain := by
  have htask : ∀ j, (w.pin t.id n now).task j = w.task j := by
    intro j
    rw [World.task, pin_tasks, World.task]
  have hinfo := hc.info_of_first ht hfirst
  have hroot : ∀ j, ((w.pin t.id n now).attemptInfo j).rootId = (w.attemptInfo j).rootId := by
    intro j
    rw [pin_info]
    split
    · rename_i hj
      rw [hj, hinfo]
    · rfl
  obtain ⟨spec, chain, hchain⟩ := hc.chains id hid
  rw [hroot]
  by_cases he : (w.attemptInfo id).rootId = t.id
  · -- the second row of the chain would retry `t`, which has not run
    rw [he] at hchain ⊢
    have hown : (w.pin t.id n now).attemptInfo t.id = ⟨t.id, 1, some n⟩ := by
      rw [pin_info, if_pos rfl]
    refine ⟨t.spec, [t.id], isChain_singleton ((htask t.id).trans ht) hfirst hown ?_⟩
    intro j hj hsome hjroot
    rw [htask] at hsome
    rw [hroot] at hjroot
    obtain ⟨k, hk⟩ := List.getElem?_of_mem ((hchain.mem j).mpr ⟨hsome, hjroot⟩)
    have hhead : chain[0]? = some t.id := by rw [← List.head?_eq_getElem?, hchain.head]
    have hpos : 1 < chain.length := by
      have hlt := (List.getElem?_eq_some_iff.mp hk).1
      by_contra hle
      have hzero : k = 0 := by omega
      rw [hzero, hhead, Option.some.injEq] at hk
      exact hj hk.symm
    obtain ⟨u, hu, hretry⟩ := hchain.link 0 t.id chain[1] hhead (List.getElem?_eq_getElem hpos)
    obtain ⟨q, hq, hqran⟩ := hc.parentRan _ u t.id hu hretry
    rw [ht, Option.some.injEq] at hq
    rw [← hq, hran] at hqran
    cases hqran
  · refine ⟨spec, chain, hchain.frame ?_ ?_⟩
    · intro j hj
      refine ⟨by rw [htask], ?_⟩
      rw [pin_info, if_neg]
      intro hjt
      have hjroot := ((hchain.mem j).mp hj).2
      rw [hjt, hinfo] at hjroot
      exact he hjroot.symm
    · intro j hj hsome hjroot
      rw [htask] at hsome
      rw [hroot] at hjroot
      exact hj ((hchain.mem j).mpr ⟨hsome, hjroot⟩)

/-- A row without a retry is the last of its chain. -/
theorem IsChain.last (hl : Linked w) {root : ResultId} {spec : TaskSpec} {chain : List ResultId}
    (hchain : IsChain cfg w root spec chain) {k : ℕ} {p : ResultId} (hp : chain[k]? = some p)
    (hfree : ∀ a ∈ w.attempts, a.parentId ≠ some p) : chain.length = k + 1 := by
  have hlt := (List.getElem?_eq_some_iff.mp hp).1
  by_contra hne
  have hnext : k + 1 < chain.length := by omega
  obtain ⟨t, ht, hretry⟩ := hchain.link k p chain[k + 1] hp (List.getElem?_eq_getElem hnext)
  obtain ⟨a, ha⟩ := Option.isSome_iff_exists.mp (hl.retries _ t ht (by simp [hretry]))
  obtain ⟨u, hu, hparent⟩ := hl.recorded _ a ha
  rw [ht, Option.some.injEq] at hu
  rw [← hu, hretry] at hparent
  exact hfree a (get_mem ha) hparent.symm

section retry

variable {row p : TaskRow} {decision : Decision} {new : ResultId} {skew : Time}

/-- The rows that were there keep their places behind a retry. -/
theorem retryRow_same (hinsert : retryRow row decision new skew w = some w') {j : ResultId}
    (hj : j ≠ new) : w'.task j = w.task j ∧ w'.attemptInfo j = w.attemptInfo j := by
  obtain ⟨-, -, -, rfl⟩ := retryRow_eq hinsert
  constructor
  · exact get_append_of_ne _ (Ne.symm hj)
  · have hne : (retryAttempt row decision new (w.clock + skew)).resultId ≠ j := Ne.symm hj
    rw [World.attemptInfo, World.attemptInfo, attemptOf_append rfl, if_neg hne, Option.or_none]

theorem retryRow_new (hinsert : retryRow row decision new skew w = some w') :
    w'.task new = some (retryTask row new (w.clock + skew)) ∧
      w'.attemptInfo new =
        ⟨decision.info.rootId, decision.info.attempt + 1, decision.info.maxAttempts⟩ := by
  obtain ⟨hnew, hattempt, -, rfl⟩ := retryRow_eq hinsert
  constructor
  · rw [task_append rfl, hnew, Option.none_or]
    exact if_pos rfl
  · have hinfo : (retryAttempt row decision new (w.clock + skew)).info =
        ⟨decision.info.rootId, decision.info.attempt + 1, decision.info.maxAttempts⟩ := rfl
    rw [← hinfo]
    apply attemptInfo_of_some
    rw [attemptOf_append rfl, hattempt, Option.none_or]
    exact if_pos rfl

/-- A retry is appended to the chain of the row it retries. -/
theorem IsChain.retry (hl : Linked w) {spec : TaskSpec} {chain : List ResultId}
    (hchain : IsChain cfg w decision.info.rootId spec chain) (hp : w.task row.id = some p)
    (hspec : row.spec = p.spec) (hinfo : decision.info = w.attemptInfo row.id)
    (hbudget : decision.info.attempt < budgetOf cfg row.spec.taskPath decision.info.maxAttempts)
    (hinsert : retryRow row decision new skew w = some w') :
    IsChain cfg w' decision.info.rootId spec (chain ++ [new]) := by
  obtain ⟨hnone, -, hfree, -⟩ := retryRow_eq hinsert
  obtain ⟨htask, hplace⟩ := retryRow_new hinsert
  have hparent : row.id ∈ chain := (hchain.mem row.id).mpr ⟨by simp [hp], by rw [hinfo]⟩
  obtain ⟨k, hk⟩ := List.getElem?_of_mem hparent
  have hlength := hchain.last hl hk hfree
  have hattempt := hchain.info k row.id hk
  rw [← hinfo] at hattempt
  have hrowSpec : row.spec = spec := hspec.trans (hchain.specs row.id hparent p hp)
  have hne : ∀ j ∈ chain, j ≠ new := by
    intro j hj he
    have hsome := ((hchain.mem j).mp hj).1
    rw [he, hnone] at hsome
    cases hsome
  have hsame : ∀ j ∈ chain, w'.task j = w.task j ∧ w'.attemptInfo j = w.attemptInfo j :=
    fun j hj => retryRow_same hinsert (hne j hj)
  have hroot := hsame _ hchain.root_mem
  -- a place in the longer chain is one of the old chain, or the new last one
  have hplaces : ∀ i j, (chain ++ [new])[i]? = some j →
      chain[i]? = some j ∨ i = chain.length ∧ j = new := by
    intro i j hij
    rw [List.getElem?_append] at hij
    split at hij
    · exact .inl hij
    · rw [List.getElem?_singleton] at hij
      split at hij
      · rw [Option.some.injEq] at hij
        exact .inr ⟨by omega, hij.symm⟩
      · cases hij
  refine ⟨?_, ?_, ?_, ?_, ?_, ?_, ?_⟩
  · rw [List.head?_append, hchain.head, Option.some_or]
  · rw [hroot.1]
    exact hchain.first
  · intro j
    rw [List.mem_append, List.mem_singleton]
    by_cases hj : j = new
    · rw [hj, htask, hplace]
      simp
    · rw [(retryRow_same hinsert hj).1, (retryRow_same hinsert hj).2, hchain.mem]
      simp [hj]
  · intro i j hij
    rw [hroot.2]
    rcases hplaces i j hij with hold | ⟨hi, hj⟩
    · rw [(hsame j (List.mem_of_getElem? hold)).2, hchain.info i j hold]
    · rw [hj, hplace, hi, hlength, hattempt]
  · intro i q j hq hj
    rcases hplaces (i + 1) j hj with hold | ⟨hi, hnew⟩
    · rcases hplaces i q hq with hq | ⟨hlen, -⟩
      · rw [(hsame j (List.mem_of_getElem? hold)).1]
        exact hchain.link i q j hq hold
      · have hlt := (List.getElem?_eq_some_iff.mp hold).1
        omega
    · have hik : i = k := by omega
      rw [hik, List.getElem?_append_left (by omega), hk, Option.some.injEq] at hq
      rw [hnew, htask, ← hq]
      exact ⟨_, rfl, rfl⟩
  · intro j hj u hu
    rw [List.mem_append, List.mem_singleton] at hj
    rcases hj with hj | hj
    · rw [(hsame j hj).1] at hu
      exact hchain.specs j hj u hu
    · rw [hj, htask, Option.some.injEq] at hu
      rw [← hu]
      exact hrowSpec
  · have hmax : (w.attemptInfo decision.info.rootId).maxAttempts = decision.info.maxAttempts := by
      rw [hattempt]
    rw [List.length_append, hlength, hroot.2, hmax, ← hrowSpec]
    rw [hattempt] at hbudget
    apply le_max_of_le_right
    push_cast at hbudget ⊢
    rw [hattempt]
    exact hbudget

theorem Chained.retry (hl : Linked w) (hc : Chained cfg w) (hp : w.task row.id = some p)
    (hspec : row.spec = p.spec) (hinfo : decision.info = w.attemptInfo row.id)
    (hbudget : decision.info.attempt < budgetOf cfg row.spec.taskPath decision.info.maxAttempts)
    (hinsert : retryRow row decision new skew w = some w') {id : ResultId}
    (hid : (w'.task id).isSome) :
    ∃ spec chain, IsChain cfg w' (w'.attemptInfo id).rootId spec chain := by
  by_cases he : (w'.attemptInfo id).rootId = decision.info.rootId
  · rw [he]
    obtain ⟨spec, chain, hchain⟩ := hc.chains row.id (by simp [hp])
    rw [← hinfo] at hchain
    exact ⟨spec, _, hchain.retry hl hp hspec hinfo hbudget hinsert⟩
  · have hroot : (w'.attemptInfo new).rootId = decision.info.rootId := by
      rw [(retryRow_new hinsert).2]
    have hne : id ≠ new := fun hidnew => he (hidnew ▸ hroot)
    rw [(retryRow_same hinsert hne).1] at hid
    obtain ⟨spec, chain, hchain⟩ := hc.chains id hid
    rw [(retryRow_same hinsert hne).2] at he ⊢
    refine ⟨spec, chain, hchain.frame ?_ ?_⟩
    · intro j hj
      have hjne : j ≠ new := by
        intro hjnew
        have hsome := ((hchain.mem j).mp hj).1
        rw [hjnew, (retryRow_eq hinsert).1] at hsome
        cases hsome
      exact ⟨by rw [(retryRow_same hinsert hjne).1], (retryRow_same hinsert hjne).2⟩
    · intro j hj hsome hjroot
      by_cases hjnew : j = new
      · rw [hjnew, hroot] at hjroot
        exact he hjroot.symm
      · rw [(retryRow_same hinsert hjnew).1] at hsome
        rw [(retryRow_same hinsert hjnew).2] at hjroot
        exact hj ((hchain.mem j).mpr ⟨hsome, hjroot⟩)

end retry

theorem Chained.step (hl : Linked w) (hc : Chained cfg w) (h : Change cfg allowed w w') :
    Chained cfg w' := by
  constructor
  · intro id t' p ht' hretry
    have hparent : ∃ q, w.task p = some q ∧ q.ran = true := by
      cases ht : w.task id with
      | none => exact ((h.new ht ht').2.2 p hretry).2
      | some t =>
        obtain ⟨u, hu, hadv, -⟩ := h.row hl.toBase ht
        rw [hu, Option.some.injEq] at ht'
        rw [← ht', hadv.retryOf] at hretry
        exact hc.parentRan id t p ht hretry
    obtain ⟨q, hq, hran⟩ := hparent
    obtain ⟨q', hq', hadv, -⟩ := h.row hl.toBase hq
    exact ⟨q', hq', hadv.ran hran⟩
  · intro id hid
    cases h with
    | enqueue t hnew hready hran hfirst => exact hc.enqueue hl t hnew hfirst hid
    | pin j n now hpin =>
      obtain ⟨t, ht, hready, hfirst⟩ := pinnable_iff.mp hpin
      have hj := id_of_task ht
      subst hj
      have hran : t.ran = false := by simpa [TaskRow.Ok, hready] using hl.rows _ t ht
      rw [World.task, pin_tasks] at hid
      exact hc.pin n now ht hran hfirst hid
    | retry row decision new skew hp hran hspec hinfo hbudget hinsert =>
      exact hc.retry hl hp hspec hinfo hbudget hinsert hid
    | claim | finish | reap | cancel =>
      refine hc.same (fun j => sameAt_alter _ ?_ ?_ ?_ j) hid <;> intro t <;> rfl
    | mark | flag =>
      refine hc.same (fun j => ?_) hid
      apply sameAt_map (by rfl) (by rfl) <;> intro a <;> split <;> rfl
    | register =>
      refine hc.same (sameAt_of_eq ?_ ?_) hid <;> unfold World.registerWorker <;> split <;> rfl
    | tick => refine hc.same (sameAt_of_eq ?_ ?_) hid <;> unfold World.tick <;> split <;> rfl
    | idle | beat | stop | lapse | read | prune =>
      refine hc.same (fun j => ?_) hid
      apply sameAt_of_eq <;> rfl

/-! ## Runs -/

theorem chained_empty : Chained cfg {} := by
  constructor
  · intro id t p ht
    cases ht
  · intro id hid
    cases hid

theorem stable_chained : Stable (Step cfg allowed) fun w => Linked w ∧ Chained cfg w :=
  fun _ _ h hstep => ⟨h.1.step hstep.2, h.2.step h.1 hstep.2⟩

theorem runJobs_chained (cfg : Settings) (moves : List (Move Job)) :
    Linked (runJobs cfg moves).state ∧ Chained cfg (runJobs cfg moves).state := by
  have hstable : Stable (Step cfg fun _ => True) fun w => Linked w ∧ Chained cfg w := stable_chained
  exact (runJobs_sound hstable (fun _ h => h.1) ⟨linked_empty, chained_empty⟩
    fun job _ => job.allowed_true).state

/-- However the jobs interleave, no attempt is retried twice, a row is a retry exactly when its
attempt row says so, and each row stands in the chain of its root: the attempts are numbered from
one, share a root and a budget, and stay within that budget or are the first attempt alone. -/
theorem attempts_retried_once (cfg : Settings) (moves : List (Move Job)) :
    let w := (runJobs cfg moves).state
    (∀ a ∈ w.attempts, ∀ b ∈ w.attempts,
      a.parentId.isSome → a.parentId = b.parentId → a = b) ∧
    (∀ id p, (∃ t, w.task id = some t ∧ t.retryOf = some p) ↔
      ∃ a, w.attemptOf id = some a ∧ a.parentId = some p) ∧
    ∀ id, (w.task id).isSome → ∃ spec chain, id ∈ chain ∧
      IsChain cfg w (w.attemptInfo id).rootId spec chain := by
  obtain ⟨hl, hc⟩ := runJobs_chained cfg moves
  refine ⟨hl.parents, ?_, ?_⟩
  · intro id p
    constructor
    · rintro ⟨t, ht, hretry⟩
      obtain ⟨a, ha⟩ := Option.isSome_iff_exists.mp (hl.retries id t ht (by simp [hretry]))
      obtain ⟨u, hu, hparent⟩ := hl.recorded id a ha
      rw [ht, Option.some.injEq] at hu
      exact ⟨a, ha, by rw [← hparent, ← hu, hretry]⟩
    · rintro ⟨a, ha, hparent⟩
      obtain ⟨t, ht, hretry⟩ := hl.recorded id a ha
      exact ⟨t, ht, hretry.trans hparent⟩
  · intro id hid
    obtain ⟨spec, chain, hchain⟩ := hc.chains id hid
    exact ⟨spec, chain, (hchain.mem id).mpr ⟨hid, rfl⟩, hchain⟩

/-- A budget of zero does not keep the first attempt from being made. -/
theorem first_attempt_over_budget :
    let cfg : Settings := { defaultMaxAttempts := 0 }
    let spec : TaskSpec := ⟨"apps.tasks.tasks.process_data_task".toList, "default".toList, 5,
      "default".toList, []⟩
    let w := (runJobs cfg [.start (.enqueue 0 spec 0), .run 0]).state
    ¬ ((w.tasks.filter fun t => (w.attemptInfo t.id).rootId = 0).length : ℤ) ≤
      budgetOf cfg spec.taskPath (w.attemptInfo 0).maxAttempts := by
  decide +kernel

end CwStation.Tasks
