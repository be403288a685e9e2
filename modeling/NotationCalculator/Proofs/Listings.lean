import NotationCalculator.Expression
import Mathlib.Data.List.Basic

/-!
# Unique readability of listings

The role of a token says how many expressions belong to it, so a pre-order listing shows where it
ends: two listings that begin the same tokens are of the same tree and leave the same rest. A
post-order listing read backwards is the pre-order listing of the mirrored tree, so it determines
its tree as well.
-/
namespace NotationCalculator.Tree

variable {scope : Scope} {isAnswer : String → Bool}

/-- The tree with the operands of each operator exchanged. -/
def mirror : Tree → Tree
  | .operand token => .operand token
  | .unary operator argument => .unary operator argument.mirror
  | .binary operator left right => .binary operator right.mirror left.mirror

@[simp] theorem mirror_mirror (t : Tree) : t.mirror.mirror = t := by
  induction t with
  | operand token => rfl
  | unary operator argument ih => rw [mirror, mirror, ih]
  | binary operator left right ihLeft ihRight => rw [mirror, mirror, ihLeft, ihRight]

theorem preOrder_mirror (t : Tree) : t.mirror.preOrder = t.postOrder.reverse := by
  induction t with
  | operand token => rfl
  | unary operator argument ih => simp [mirror, preOrder, postOrder, ih]
  | binary operator left right ihLeft ihRight =>
    simp [mirror, preOrder, postOrder, ihLeft, ihRight]

theorem Fits.mirror {t : Tree} (ht : t.Fits scope isAnswer) : t.mirror.Fits scope isAnswer := by
  induction t with
  | operand token => exact ht
  | unary operator argument ih =>
    obtain ⟨hop, harg⟩ := ht
    exact ⟨hop, ih harg⟩
  | binary operator left right ihLeft ihRight =>
    obtain ⟨hop, hleft, hright⟩ := ht
    exact ⟨hop, ihRight hright, ihLeft hleft⟩

/-- No listing is a proper beginning of another one. -/
theorem preOrder_append_inj {t u : Tree} {xs ys : List String} (ht : t.Fits scope isAnswer)
    (hu : u.Fits scope isAnswer) (h : t.preOrder ++ xs = u.preOrder ++ ys) : t = u ∧ xs = ys := by
  induction t generalizing u xs ys with
  | operand token =>
    obtain ⟨x, hrole⟩ := ht
    cases u with
    | operand token' => simpa [preOrder] using h
    | unary operator' argument' =>
      obtain ⟨rfl, -⟩ := List.cons.inj h
      exact absurd (hrole.symm.trans hu.1) (by simp)
    | binary operator' left' right' =>
      obtain ⟨rfl, -⟩ := List.cons.inj h
      exact absurd (hrole.symm.trans hu.1) (by simp)
  | unary operator argument ih =>
    obtain ⟨hrole, harg⟩ := ht
    cases u with
    | operand token' =>
      obtain ⟨x, hrole'⟩ := hu
      obtain ⟨rfl, -⟩ := List.cons.inj h
      exact absurd (hrole.symm.trans hrole') (by simp)
    | unary operator' argument' =>
      obtain ⟨rfl, htail⟩ := List.cons.inj h
      obtain ⟨rfl, rfl⟩ := ih harg hu.2 htail
      exact ⟨rfl, rfl⟩
    | binary operator' left' right' =>
      obtain ⟨rfl, -⟩ := List.cons.inj h
      exact absurd (hrole.symm.trans hu.1) (by simp)
  | binary operator left right ihLeft ihRight =>
    obtain ⟨hrole, hleft, hright⟩ := ht
    cases u with
    | operand token' =>
      obtain ⟨x, hrole'⟩ := hu
      obtain ⟨rfl, -⟩ := List.cons.inj h
      exact absurd (hrole.symm.trans hrole') (by simp)
    | unary operator' argument' =>
      obtain ⟨rfl, -⟩ := List.cons.inj h
      exact absurd (hrole.symm.trans hu.1) (by simp)
    | binary operator' left' right' =>
      obtain ⟨-, hleft', hright'⟩ := hu
      simp only [preOrder, List.cons_append, List.append_assoc, List.cons.injEq] at h
      obtain ⟨rfl, htail⟩ := h
      obtain ⟨rfl, hrest⟩ := ihLeft hleft hleft' htail
      obtain ⟨rfl, rfl⟩ := ihRight hright hright' hrest
      exact ⟨rfl, rfl⟩

theorem preOrder_inj {t u : Tree} (ht : t.Fits scope isAnswer) (hu : u.Fits scope isAnswer)
    (h : t.preOrder = u.preOrder) : t = u := by
  have happ : t.preOrder ++ [] = u.preOrder ++ [] := by rw [h]
  exact (preOrder_append_inj ht hu happ).1

theorem postOrder_inj {t u : Tree} (ht : t.Fits scope isAnswer) (hu : u.Fits scope isAnswer)
    (h : t.postOrder = u.postOrder) : t = u := by
  have hmirror : t.mirror.preOrder = u.mirror.preOrder := by
    rw [preOrder_mirror, preOrder_mirror, h]
  rw [← mirror_mirror t, ← mirror_mirror u, preOrder_inj ht.mirror hu.mirror hmirror]

end NotationCalculator.Tree
