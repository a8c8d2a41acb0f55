import CwStation.Model.Telemetry
import Mathlib.Order.Lattice

/-! # Logger levels over a sequence of windows -/

namespace CwStation.Telemetry

open Inherited

variable {u : Unicode} {s : Settings} {p : Process} {level : ℤ} {name logger above : Name}

/-! ## Putting back -/

/-- The levels `restore_levels` brings. -/
def Process.original (p : Process) : Levels := p.savedLevels.foldr putBack p.levels

theorem restoreLevels_levels (p : Process) : (restoreLevels p).levels = p.original := rfl

theorem original_restoreLevels (p : Process) : (restoreLevels p).original = p.original := rfl

theorem foldr_putBack_of_ne (levels : Levels) (saved : List (Name × ℤ)) (level : ℤ)
    {x : Name} (hx : x ≠ logger) :
    saved.foldr putBack (levels.setLevel logger level) x = saved.foldr putBack levels x := by
  induction saved with
  | nil => exact Function.update_of_ne hx _ _
  | cons entry saved ih =>
    simp only [List.foldr_cons, putBack, Levels.setLevel]
    by_cases hentry : x = getLogger entry.1
    · rw [hentry, Function.update_self, Function.update_self]
    · rw [Function.update_of_ne hentry, Function.update_of_ne hentry]
      exact ih

/-- A saved entry puts its logger back whatever its level is now. -/
theorem foldr_putBack_setLevel {saved : List (Name × ℤ)} (h : (saved.lookup name).isSome = true)
    (levels : Levels) (level : ℤ) :
    saved.foldr putBack (levels.setLevel (getLogger name) level) = saved.foldr putBack levels := by
  induction saved with
  | nil => simp at h
  | cons entry saved ih =>
    rw [List.foldr_cons, List.foldr_cons]
    by_cases hname : name = entry.1
    · funext x
      simp only [putBack, Levels.setLevel]
      by_cases hx : x = getLogger entry.1
      · rw [hx, Function.update_self, Function.update_self]
      · rw [Function.update_of_ne hx, Function.update_of_ne hx]
        exact foldr_putBack_of_ne levels saved level (hname ▸ hx)
    · rw [List.lookup_cons, beq_false_of_ne hname] at h
      rw [ih h]

theorem original_change (p : Process) (name : Name) (level : ℤ) :
    (p.change name level).original = p.original := by
  unfold Process.original Process.change
  split
  · rename_i hsaved
    exact foldr_putBack_setLevel hsaved p.levels level
  · rw [List.foldr_append]
    simp [putBack, Levels.setLevel]

theorem original_lower (p : Process) (level : ℤ) (name : Name) :
    (p.lower level name).original = p.original := by
  unfold Process.lower
  split
  · exact original_change p name level
  · rfl

theorem original_foldl_lower (p : Process) (level : ℤ) (names : List Name) :
    (names.foldl (Process.lower level) p).original = p.original := by
  induction names generalizing p with
  | nil => rfl
  | cons name names ih => rw [List.foldl_cons, ih, original_lower]

theorem original_pin (p : Process) (pinned : Name × ℤ) : (p.pin pinned).original = p.original := by
  unfold Process.pin
  split
  · exact original_change p pinned.1 pinned.2
  · rfl

/-- No call forgets what the levels were. -/
theorem original_applyLevels (u : Unicode) (s : Settings) (level : ℤ) (p : Process) :
    (applyLevels u s level p).original = p.original := by
  unfold applyLevels
  split
  · exact original_restoreLevels p
  · rw [show pinnedLoggers.foldl Process.pin _ = Process.pin _ _ from rfl, original_pin,
      original_foldl_lower]

/-! ## Lowering -/

/-- What lowering loggers to a level may do to the effective level of any of them. -/
def Lowered (level : ℤ) (before after : Levels) : Prop :=
  ∀ logger, after.getEffectiveLevel logger = before.getEffectiveLevel logger ∨
    after.getEffectiveLevel logger = level ∧ level < before.getEffectiveLevel logger

theorem Lowered.trans {before between after : Levels} (hfirst : Lowered level before between)
    (hsecond : Lowered level between after) : Lowered level before after := by
  intro logger
  rcases hsecond logger with hsecond | ⟨hsecond, hlt⟩
  · rw [hsecond]
    exact hfirst logger
  · refine .inr ⟨hsecond, ?_⟩
    rcases hfirst logger with hfirst | ⟨hfirst, -⟩
    · exact hfirst ▸ hlt
    · rw [hfirst] at hlt
      exact absurd hlt (lt_irrefl level)

theorem Lowered.le {before after : Levels} (h : Lowered level before after) (logger : Name) :
    after.getEffectiveLevel logger ≤ before.getEffectiveLevel logger := by
  rcases h logger with h | ⟨h, hlt⟩
  · exact h.le
  · exact h ▸ hlt.le

theorem lower_levels (h : level < p.levels.getEffectiveLevel (getLogger name)) :
    (p.lower level name).levels = p.levels.setLevel (getLogger name) level := by
  rw [Process.lower, if_pos h]
  rfl

theorem lower_of_le (h : p.levels.getEffectiveLevel (getLogger name) ≤ level) :
    p.lower level name = p :=
  if_neg (not_lt.mpr h)

theorem lowered_lower (hlevel : level ≠ 0) (p : Process) (name : Name) :
    Lowered level p.levels (p.lower level name).levels := by
  intro logger
  by_cases hlt : level < p.levels.getEffectiveLevel (getLogger name)
  · rw [lower_levels hlt]
    by_cases hthrough : Through p.levels (getLogger name) logger
    · refine .inr ⟨effective_update_of_through hthrough hlevel, ?_⟩
      have hsame := effective_of_through hthrough
      exact hlt.trans_eq hsame.symm
    · exact .inl (effective_update_of_not_through hthrough level)
  · rw [lower_of_le (not_lt.mp hlt)]
    exact .inl rfl

theorem lower_le (hlevel : level ≠ 0) (p : Process) (name : Name) :
    (p.lower level name).levels.getEffectiveLevel (getLogger name) ≤ level := by
  by_cases hlt : level < p.levels.getEffectiveLevel (getLogger name)
  · rw [lower_levels hlt]
    exact (effective_update_of_through (through_self _ _) hlevel).le
  · rw [lower_of_le (not_lt.mp hlt)]
    exact not_lt.mp hlt

theorem lowered_foldl (hlevel : level ≠ 0) (names : List Name) (p : Process) :
    Lowered level p.levels (names.foldl (Process.lower level) p).levels := by
  induction names generalizing p with
  | nil => exact fun _ => .inl rfl
  | cons name names ih => exact (lowered_lower hlevel p name).trans (ih _)

theorem foldl_lower_le (hlevel : level ≠ 0) {names : List Name} (hname : name ∈ names)
    (p : Process) :
    (names.foldl (Process.lower level) p).levels.getEffectiveLevel (getLogger name) ≤ level := by
  induction names generalizing p with
  | nil => simp at hname
  | cons first names ih =>
    rcases List.mem_cons.mp hname with rfl | hname
    · exact ((lowered_foldl hlevel names _).le _).trans (lower_le hlevel p name)
    · exact ih hname _

theorem foldl_lower_of_le {names : List Name}
    (h : ∀ name ∈ names, p.levels.getEffectiveLevel (getLogger name) ≤ level) :
    names.foldl (Process.lower level) p = p := by
  induction names with
  | nil => rfl
  | cons name names ih =>
    rw [List.foldl_cons, lower_of_le (h name List.mem_cons_self)]
    exact ih fun other hother => h other (List.mem_cons_of_mem _ hother)

/-- A level that `setLevel` does not take for `NOTSET` on any logger it is set on. -/
def Settable (s : Settings) (level : ℤ) (p : Process) : Prop :=
  level = 0 → ∀ name ∈ s.captureLoggers, p.levels.getEffectiveLevel (getLogger name) ≤ 0

/-- The first loop brings a captured logger down to the level, and no further. -/
theorem foldl_lower_captured (h : Settable s level p) (hname : name ∈ s.captureLoggers) :
    (s.captureLoggers.foldl (Process.lower level) p).levels.getEffectiveLevel (getLogger name) =
      min (p.levels.getEffectiveLevel (getLogger name)) level := by
  by_cases hlevel : level = 0
  · have hlow := h hlevel
    rw [hlevel, foldl_lower_of_le hlow]
    exact (min_eq_left (hlow name hname)).symm
  · have hle := foldl_lower_le hlevel hname p
    rcases lowered_foldl hlevel s.captureLoggers p (getLogger name) with heq | ⟨heq, hlt⟩
    · rw [heq] at hle ⊢
      exact (min_eq_left hle).symm
    · rw [heq]
      exact (min_eq_right hlt.le).symm

/-! ## Pinning -/

theorem pin_of_le {pinned : Name × ℤ}
    (h : pinned.2 ≤ p.levels.getEffectiveLevel (getLogger pinned.1)) : p.pin pinned = p :=
  if_neg (not_lt.mpr h)

theorem pin_levels {pinned : Name × ℤ}
    (h : p.levels.getEffectiveLevel (getLogger pinned.1) < pinned.2) :
    (p.pin pinned).levels = p.levels.setLevel (getLogger pinned.1) pinned.2 := by
  rw [Process.pin, if_pos h]
  rfl

/-- A pinned logger is at its floor at least. -/
theorem floor_le_pin {pinned : Name × ℤ} (hfloor : pinned.2 ≠ 0) :
    pinned.2 ≤ (p.pin pinned).levels.getEffectiveLevel (getLogger pinned.1) := by
  by_cases hlow : p.levels.getEffectiveLevel (getLogger pinned.1) < pinned.2
  · rw [pin_levels hlow]
    exact (effective_update_of_through (through_self _ _) hfloor).ge
  · rw [pin_of_le (not_lt.mp hlow)]
    exact not_lt.mp hlow

theorem pin_of_not_through {pinned : Name × ℤ}
    (h : ¬Through p.levels (getLogger pinned.1) logger) :
    (p.pin pinned).levels.getEffectiveLevel logger = p.levels.getEffectiveLevel logger := by
  by_cases hlow : p.levels.getEffectiveLevel (getLogger pinned.1) < pinned.2
  · rw [pin_levels hlow]
    exact effective_update_of_not_through h pinned.2
  · rw [pin_of_le (not_lt.mp hlow)]

/-! ## Captured loggers below a pinned one -/

theorem through_of_lower (hlevel : level ≠ 0)
    (h : Through (p.lower level name).levels above logger) : Through p.levels above logger := by
  by_cases hlt : level < p.levels.getEffectiveLevel (getLogger name)
  · rw [lower_levels hlt] at h
    exact through_of_update hlevel h
  · rwa [lower_of_le (not_lt.mp hlt)] at h

theorem through_of_foldl (hlevel : level ≠ 0) {names : List Name}
    (h : Through (names.foldl (Process.lower level) p).levels above logger) :
    Through p.levels above logger := by
  induction names generalizing p with
  | nil => exact h
  | cons name names ih => exact through_of_lower hlevel (ih h)

/-- Lowering loggers a logger does not depend on leaves it alone. -/
theorem foldl_lower_apart (hlevel : level ≠ 0) {names : List Name}
    (h : ∀ name ∈ names, ¬Through p.levels (getLogger name) logger) :
    (names.foldl (Process.lower level) p).levels.getEffectiveLevel logger =
      p.levels.getEffectiveLevel logger := by
  induction names generalizing p with
  | nil => rfl
  | cons name names ih =>
    have hfirst : (p.lower level name).levels.getEffectiveLevel logger =
        p.levels.getEffectiveLevel logger := by
      by_cases hlt : level < p.levels.getEffectiveLevel (getLogger name)
      · rw [lower_levels hlt]
        exact effective_update_of_not_through (h name List.mem_cons_self) level
      · rw [lower_of_le (not_lt.mp hlt)]
    rw [List.foldl_cons, ih, hfirst]
    intro other hother hthrough
    exact h other (List.mem_cons_of_mem _ hother) (through_of_lower hlevel hthrough)

/-- The first captured logger on the way up from a logger stands below the one above. -/
structure LoweredFirst (names : List Name) (levels : Levels) (above logger : Name)
    (before : List Name) (name : Name) (after : List Name) : Prop where
  names_eq : names = before ++ name :: after
  below : Through levels (getLogger name) logger
  upper : Through levels above (getLogger name)
  apart : above ≠ getLogger name
  first : ∀ other ∈ before, ¬Through levels (getLogger other) above

/-- The first loop gives it a level, which cuts the logger off from the one above. -/
theorem LoweredFirst.cut {names before after : List Name} (hlevel : level ≠ 0)
    (h : LoweredFirst names p.levels above logger before name after)
    (hlt : level < p.levels.getEffectiveLevel logger) :
    ¬Through (names.foldl (Process.lower level) p).levels above logger := by
  intro hcut
  rw [h.names_eq, List.foldl_append, List.foldl_cons] at hcut
  have hthrough := through_of_foldl hlevel hcut
  have hbefore := through_of_lower hlevel hthrough
  -- before its turn the level of the captured logger is still the one it had
  have hsame : (before.foldl (Process.lower level) p).levels.getEffectiveLevel (getLogger name) =
      p.levels.getEffectiveLevel logger := by
    calc _ = (before.foldl (Process.lower level) p).levels.getEffectiveLevel above :=
          effective_of_through (through_between h.upper h.below hbefore)
      _ = p.levels.getEffectiveLevel above := foldl_lower_apart hlevel h.first
      _ = p.levels.getEffectiveLevel (getLogger name) := (effective_of_through h.upper).symm
      _ = p.levels.getEffectiveLevel logger := (effective_of_through h.below).symm
  have hlower := hsame.symm ▸ hlt
  refine not_through_of_between h.upper h.below h.apart ?_ hthrough
  rw [lower_levels hlower]
  simpa [Levels.setLevel] using hlevel

/-- A captured logger keeps its level when a pinned logger is raised: it does not take its level
through it, or the pinned logger is not below its floor, or the first loop gives a logger between
them a level of its own. -/
def Unshadowed (names : List Name) (level : ℤ) (levels : Levels) (logger : Name)
    (pinned : Name × ℤ) : Prop :=
  Through levels (getLogger pinned.1) logger →
    pinned.2 ≤ min (levels.getEffectiveLevel logger) level ∨
      level < levels.getEffectiveLevel logger ∧
        ∃ before name after,
          LoweredFirst names levels (getLogger pinned.1) logger before name after

theorem floor_or_cut {pinned : Name × ℤ} (hset : Settable s level p)
    (hname : name ∈ s.captureLoggers)
    (h : Unshadowed s.captureLoggers level p.levels (getLogger name) pinned) :
    pinned.2 ≤ (s.captureLoggers.foldl (Process.lower level) p).levels.getEffectiveLevel
        (getLogger pinned.1) ∨
      ¬Through (s.captureLoggers.foldl (Process.lower level) p).levels (getLogger pinned.1)
        (getLogger name) := by
  by_cases hthrough : Through p.levels (getLogger pinned.1) (getLogger name)
  · have hsame : p.levels.getEffectiveLevel (getLogger name) =
        p.levels.getEffectiveLevel (getLogger pinned.1) := effective_of_through hthrough
    by_cases hlevel : level = 0
    · have hlow := hset hlevel
      rw [hlevel, foldl_lower_of_le hlow]
      rcases h hthrough with hfloor | ⟨hlt, -⟩
      · exact .inl (hsame ▸ hfloor.trans (min_le_left _ _))
      · rw [hlevel] at hlt
        exact absurd (hlow name hname) (not_le.mpr hlt)
    · rcases h hthrough with hfloor | ⟨hlt, before, first, after, hfirst⟩
      · rw [hsame] at hfloor
        rcases lowered_foldl hlevel s.captureLoggers p (getLogger pinned.1) with heq | ⟨heq, -⟩
        · exact .inl ((hfloor.trans (min_le_left _ _)).trans_eq heq.symm)
        · exact .inl ((hfloor.trans (min_le_right _ _)).trans_eq heq.symm)
      · exact .inr (hfirst.cut hlevel hlt)
  · refine .inr fun hafter => hthrough ?_
    by_cases hlevel : level = 0
    · have hlow := hset hlevel
      rwa [hlevel, foldl_lower_of_le hlow] at hafter
    · exact through_of_foldl hlevel hafter

theorem pin_unshadowed {pinned : Name × ℤ} (hset : Settable s level p)
    (hname : name ∈ s.captureLoggers)
    (h : Unshadowed s.captureLoggers level p.levels (getLogger name) pinned) :
    ((s.captureLoggers.foldl (Process.lower level) p).pin pinned).levels.getEffectiveLevel
        (getLogger name) =
      (s.captureLoggers.foldl (Process.lower level) p).levels.getEffectiveLevel
        (getLogger name) := by
  rcases floor_or_cut hset hname h with hfloor | hcut
  · rw [pin_of_le hfloor]
  · exact pin_of_not_through hcut

/-! ## Calls one after the other -/

/-- The process after some calls of `apply_levels`. -/
def afterCalls (u : Unicode) (s : Settings) (levels : Levels) (calls : List ℤ) : Process :=
  calls.foldl (fun p level => applyLevels u s level p) { levels := levels }

theorem afterCalls_concat (levels : Levels) (calls : List ℤ) (level : ℤ) :
    afterCalls u s levels (calls ++ [level]) =
      applyLevels u s level (afterCalls u s levels calls) := by
  simp [afterCalls]

/-- Whether a logger is free of a floor. -/
def Unpinned (logger : Name) : Prop := ∀ pinned ∈ pinnedLoggers, logger ≠ getLogger pinned.1

/-- What a call of `apply_levels` is to bring about: a captured logger is at its original level
or at the one called for, whichever is lower, a pinned one at its floor at least, and at the
baseline everything is as it was. -/
structure Follows (u : Unicode) (s : Settings) (original : Levels) (level : ℤ) (p : Process) :
    Prop where
  captured : level < s.baselineLevel u → ∀ name ∈ s.captureLoggers, Unpinned (getLogger name) →
    p.levels.getEffectiveLevel (getLogger name) =
      min (original.getEffectiveLevel (getLogger name)) level
  floors : level < s.baselineLevel u → ∀ pinned ∈ pinnedLoggers,
    pinned.2 ≤ p.levels.getEffectiveLevel (getLogger pinned.1)
  back : s.baselineLevel u ≤ level → p.levels = original

/-- What a call below the baseline needs of the levels it finds: no captured logger is still
lower, from an earlier call, than this one is to bring it, the level is not `NOTSET` for any of
them, and none loses its level to a pinned logger. -/
structure Clear (s : Settings) (original : Levels) (level : ℤ) (p : Process) : Prop where
  raised : ∀ name ∈ s.captureLoggers, Unpinned (getLogger name) →
    min (original.getEffectiveLevel (getLogger name)) level ≤
      p.levels.getEffectiveLevel (getLogger name)
  settable : Settable s level p
  unshadowed : ∀ name ∈ s.captureLoggers, Unpinned (getLogger name) → ∀ pinned ∈ pinnedLoggers,
    Unshadowed s.captureLoggers level p.levels (getLogger name) pinned

/-- Between two calls no captured logger is above its original level, and `restore_levels` would
bring back the levels of the beginning. -/
structure Kept (s : Settings) (original : Levels) (p : Process) : Prop where
  captured : ∀ name ∈ s.captureLoggers, Unpinned (getLogger name) →
    p.levels.getEffectiveLevel (getLogger name) ≤ original.getEffectiveLevel (getLogger name)
  original_eq : p.original = original

theorem kept_start (s : Settings) (levels : Levels) : Kept s levels { levels := levels } where
  captured _ _ _ := le_rfl
  original_eq := rfl

theorem follows_applyLevels {original : Levels} (hkept : Kept s original p)
    (hclear : level < s.baselineLevel u → Clear s original level p) :
    Follows u s original level (applyLevels u s level p) := by
  by_cases hlevel : level < s.baselineLevel u
  · have hcall : applyLevels u s level p =
        (s.captureLoggers.foldl (Process.lower level) p).pin
          (["backends", "db", "django"], warning) := if_neg (not_le.mpr hlevel)
    have hclear := hclear hlevel
    refine ⟨?_, ?_, fun h => absurd hlevel (not_lt.mpr h)⟩
    · intro _ name hname hfree
      rw [hcall, pin_unshadowed hclear.settable hname
        (hclear.unshadowed name hname hfree _ List.mem_cons_self),
        foldl_lower_captured hclear.settable hname]
      apply le_antisymm
      · exact min_le_min_right level (hkept.captured name hname hfree)
      · exact le_min (hclear.raised name hname hfree) (min_le_right _ _)
    · intro _ pinned hpinned
      rw [hcall, List.mem_singleton.mp hpinned]
      exact floor_le_pin (by decide)
  · have hrestore : applyLevels u s level p = restoreLevels p := if_pos (not_lt.mp hlevel)
    refine ⟨fun h => absurd h hlevel, fun h => absurd h hlevel, ?_⟩
    intro _
    rw [hrestore, restoreLevels_levels, hkept.original_eq]

theorem kept_of_follows {original : Levels} (hkept : Kept s original p)
    (h : Follows u s original level (applyLevels u s level p)) :
    Kept s original (applyLevels u s level p) := by
  refine ⟨?_, ?_⟩
  · intro name hname hfree
    by_cases hlevel : level < s.baselineLevel u
    · rw [h.captured hlevel name hname hfree]
      exact min_le_left _ _
    · rw [h.back (not_lt.mp hlevel)]
  · rw [original_applyLevels, hkept.original_eq]

/-- A sequence of calls that are all clear when they come. -/
def ClearCalls (u : Unicode) (s : Settings) (levels : Levels) (calls : List ℤ) : Prop :=
  ∀ before level after, calls = before ++ level :: after → level < s.baselineLevel u →
    Clear s levels level (afterCalls u s levels before)

theorem kept_afterCalls {levels : Levels} {calls : List ℤ} (h : ClearCalls u s levels calls) :
    Kept s levels (afterCalls u s levels calls) := by
  induction calls using List.reverseRecOn with
  | nil => exact kept_start s levels
  | append_singleton calls level ih =>
    have hbefore : ClearCalls u s levels calls := by
      intro before other after heq
      exact h before other (after ++ [level]) (by simp [heq])
    have hkept := ih hbefore
    rw [afterCalls_concat]
    exact kept_of_follows hkept (follows_applyLevels hkept (h calls level [] rfl))

/-- Every call of a clear sequence brings about what it is to bring about. -/
theorem levels_follow_calls {levels : Levels} {calls : List ℤ} (h : ClearCalls u s levels calls)
    {before after : List ℤ} (hcalls : calls = before ++ level :: after) :
    Follows u s levels level (afterCalls u s levels (before ++ [level])) := by
  have hbefore : ClearCalls u s levels before := by
    intro first other rest heq
    exact h first other (rest ++ level :: after) (by simp [hcalls, heq])
  rw [afterCalls_concat]
  exact follows_applyLevels (kept_afterCalls hbefore) (h before level after hcalls)

/-- The levels of a process that has set the root logger's only. -/
def rootAtWarning : Levels := fun logger => if logger = [] then 30 else 0

/-- A window of `DEBUG` that ends. -/
theorem clear_debug_window : ClearCalls .ascii {} rootAtWarning [10, 30] := by
  intro before level after hcalls hlow
  cases before with
  | nil =>
    obtain ⟨rfl, -⟩ := List.cons.inj hcalls
    refine ⟨fun _ _ _ => min_le_left _ _, fun h => absurd h (by decide), ?_⟩
    intro name hname _ pinned hpinned hthrough
    have hlong := length_le_of_through hthrough
    rw [List.mem_singleton.mp hpinned] at hlong
    have hshort : ∀ name ∈ ({} : Settings).captureLoggers, (getLogger name).length < 3 := by
      decide
    exact absurd hlong (not_le.mpr (hshort name hname))
  | cons first before =>
    have htail := (List.cons.inj hcalls).2
    cases before with
    | nil =>
      obtain ⟨rfl, -⟩ := List.cons.inj htail
      exact absurd hlow (by decide +kernel)
    | cons second before => simp at htail

theorem debug_window_followed :
    Follows .ascii {} rootAtWarning 30 (afterCalls .ascii {} rootAtWarning ([10] ++ [30])) :=
  levels_follow_calls clear_debug_window rfl

/-- A window of `INFO` behind one of `DEBUG` leaves the loggers at `DEBUG`. -/
theorem debug_outlives_its_window :
    ¬Follows .ascii {} rootAtWarning 20
      (afterCalls .ascii {} rootAtWarning ([10] ++ [20])) := by
  intro h
  have hlevel := h.captured (by decide +kernel) ["apps"] (by decide) (by
    intro pinned hpinned
    rw [List.mem_singleton.mp hpinned]
    decide)
  revert hlevel
  decide +kernel

end CwStation.Telemetry
