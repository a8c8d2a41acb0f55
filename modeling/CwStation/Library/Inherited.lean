import Mathlib.Algebra.Notation.Defs
import Mathlib.Logic.Function.Basic
import Mathlib.Tactic.Common

/-! # Values inherited in a tree

Nodes are paths, the last step first, so that the parent of a node is its tail and the root has
no step. A node that has no value of its own, which is written `0`, takes its parent's. -/

namespace CwStation.Inherited

variable {κ α : Type*} [Zero α]
variable {own : List κ → α} {node above below other : List κ} {value : α}

/-! ## The way up -/

/-- The second node takes its value through the first: it is that node, or it is below it and
no node on the way has a value of its own. -/
def Through (own : List κ → α) (above : List κ) : List κ → Prop
  | [] => above = []
  | step :: up => above = step :: up ∨ own (step :: up) = 0 ∧ Through own above up

theorem through_self (own : List κ → α) (node : List κ) : Through own node node := by
  cases node with
  | nil => rfl
  | cons step up => exact .inl rfl

theorem length_le_of_through (h : Through own above node) : above.length ≤ node.length := by
  induction node with
  | nil => exact Nat.le_of_eq (congrArg List.length h)
  | cons step up ih =>
    rcases h with h | ⟨-, h⟩
    · exact Nat.le_of_eq (congrArg List.length h)
    · exact Nat.le_succ_of_le (ih h)

section Between

variable {own' : List κ → α} (hupper : Through own' above below) (hlower : Through own' below node)
include hupper hlower

/-- What a node takes through one above, a node between them takes through it too. -/
theorem through_between (h : Through own above node) : Through own above below := by
  induction node with
  | nil =>
    rw [show below = [] from hlower]
    exact h
  | cons step up ih =>
    rcases hlower with hbelow | ⟨-, hbelow⟩
    · rw [hbelow]
      exact h
    · rcases h with h | ⟨-, h⟩
      · have hlong := length_le_of_through hupper
        have hshort := length_le_of_through hbelow
        rw [h, List.length_cons] at hlong
        omega
      · exact ih hbelow h

/-- A value between them cuts a node off from the one above. -/
theorem not_through_of_between (hne : above ≠ below) (hown : own below ≠ 0) :
    ¬Through own above node := by
  intro h
  have hbelow := through_between hupper hlower h
  cases below with
  | nil => exact hne hbelow
  | cons step up =>
    rcases hbelow with heq | ⟨hnone, -⟩
    · exact hne heq
    · exact hown hnone

end Between

/-! ## Values -/

variable [DecidableEq α]

/-- The value of a node: its own, or else its parent's. -/
def effective (own : List κ → α) : List κ → α
  | [] => own []
  | step :: up => if own (step :: up) = 0 then effective own up else own (step :: up)

theorem effective_of_through (h : Through own above node) :
    effective own node = effective own above := by
  induction node with
  | nil => rw [show above = [] from h]
  | cons step up ih =>
    rcases h with h | ⟨hnone, h⟩
    · rw [h]
    · rw [effective, if_pos hnone, ih h]

/-! ## Giving a node a value -/

variable [DecidableEq κ]

theorem effective_update_of_through (h : Through own above node) (hvalue : value ≠ 0) :
    effective (Function.update own above value) node = value := by
  induction node with
  | nil => rw [show above = [] from h, effective, Function.update_self]
  | cons step up ih =>
    by_cases hself : above = step :: up
    · rw [hself, effective, Function.update_self, if_neg hvalue]
    · obtain ⟨hnone, hup⟩ := h.resolve_left hself
      rw [effective, Function.update_of_ne (Ne.symm hself), if_pos hnone, ih hup]

theorem effective_update_of_not_through (h : ¬Through own above node) (value : α) :
    effective (Function.update own above value) node = effective own node := by
  induction node with
  | nil => rw [effective, effective, Function.update_of_ne (Ne.symm h)]
  | cons step up ih =>
    have hself : step :: up ≠ above := fun heq => h (.inl heq.symm)
    rw [effective, effective, Function.update_of_ne hself]
    split
    · rename_i hnone
      exact ih fun hup => h (.inr ⟨hnone, hup⟩)
    · rfl

omit [DecidableEq α] in
/-- A node that gets a value of its own opens no way. -/
theorem through_of_update (hvalue : value ≠ 0)
    (h : Through (Function.update own other value) above node) : Through own above node := by
  induction node with
  | nil => exact h
  | cons step up ih =>
    rcases h with h | ⟨hnone, h⟩
    · exact .inl h
    · by_cases hother : step :: up = other
      · rw [hother, Function.update_self] at hnone
        exact absurd hnone hvalue
      · rw [Function.update_of_ne hother] at hnone
        exact .inr ⟨hnone, ih h⟩

end CwStation.Inherited
