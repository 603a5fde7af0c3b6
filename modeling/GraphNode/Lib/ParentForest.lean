import Mathlib

/-!
# Forests of parent pointers

A forest is given by the parent of each node, and a rank (a block number, a depth) that drops
from a node to its parent. `Ancestor a b` says that `a` is reached from `b` by following
parents, `b` itself included.

Ranks make the relation a partial order along which they grow: it is transitive
(`Ancestor.trans`), the rank of an ancestor is at most that of the node (`Ancestor.rank_le`),
and an ancestor of the same rank is the node itself (`Ancestor.eq_of_rank_le`). A proper
ancestor of a node is an ancestor of its parent (`Ancestor.exists_parent_of_ne`), which is how
a walk back from a node is followed step by step.
-/

namespace GraphNode

/-- A forest of parent pointers whose rank drops from a node to its parent. -/
structure ParentForest (α : Type) where
  rank : α → Int
  parent : α → Option α
  rank_parent_lt : ∀ a p, parent a = some p → rank p < rank a

namespace ParentForest

variable {α : Type} (F : ParentForest α)

/-- `Ancestor a b`: `a` is `b` or an ancestor of the parent of `b`. -/
inductive Ancestor : α → α → Prop
  | refl (a : α) : Ancestor a a
  | parent {a b p : α} : F.parent b = some p → Ancestor a p → Ancestor a b

variable {F}

theorem Ancestor.of_parent {b p : α} (hp : F.parent b = some p) : F.Ancestor p b :=
  .parent hp (.refl p)

theorem Ancestor.trans {a b c : α} (hab : F.Ancestor a b) (hbc : F.Ancestor b c) :
    F.Ancestor a c := by
  induction hbc with
  | refl => exact hab
  | parent hp _ ih => exact .parent hp ih

/-- Ranks grow from an ancestor to the node. -/
theorem Ancestor.rank_le {a b : α} (h : F.Ancestor a b) : F.rank a ≤ F.rank b := by
  induction h with
  | refl => exact le_refl _
  | parent hp _ ih => exact ih.trans (F.rank_parent_lt _ _ hp).le

/-- An ancestor of no lower rank is the node itself. -/
theorem Ancestor.eq_of_rank_le {a b : α} (h : F.Ancestor a b) (hr : F.rank b ≤ F.rank a) :
    a = b := by
  cases h with
  | refl => rfl
  | parent hp hap =>
    have hlt := hap.rank_le.trans_lt (F.rank_parent_lt _ _ hp)
    omega

/-- A proper ancestor of a node is an ancestor of its parent. -/
theorem Ancestor.exists_parent_of_ne {a b : α} (h : F.Ancestor a b) (hne : a ≠ b) :
    ∃ p, F.parent b = some p ∧ F.Ancestor a p := by
  cases h with
  | refl => exact absurd rfl hne
  | parent hp hap => exact ⟨_, hp, hap⟩

end ParentForest

end GraphNode
