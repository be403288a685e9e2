import Mathlib.Data.List.Forall2

/-!
# Exchanging members of a list

Some of the members of a list that satisfy a condition are exchanged for one and the same other
member. Which of them is told by a list of choices, one for each of them in turn, so that the same
choices can be made in another list that has the same such members in the same order.
-/
namespace NotationCalculator

variable {α β : Type}

/-- The list with some of the members that satisfy `p` exchanged for `q`. The choices tell for each
of them in turn whether it is, and where there are no more choices none is. -/
def exchange (p : α → Bool) (q : α) (choices : List Bool) : List α → List α
  | [] => []
  | x :: xs =>
    if p x then (if choices.headD false then q else x) :: exchange p q choices.tail xs
    else x :: exchange p q choices xs

variable {p : α → Bool} {q x : α} {xs : List α}

@[simp] theorem exchange_nil (p : α → Bool) (q : α) (choices : List Bool) :
    exchange p q choices [] = [] := rfl

theorem exchange_cons_of_pos (h : p x = true) (q : α) (choices : List Bool) (xs : List α) :
    exchange p q choices (x :: xs) =
      (if choices.headD false then q else x) :: exchange p q choices.tail xs := by
  rw [exchange, if_pos h]

theorem exchange_cons_of_neg (h : p x = false) (q : α) (choices : List Bool) (xs : List α) :
    exchange p q choices (x :: xs) = x :: exchange p q choices xs := by
  rw [exchange, if_neg (by simp [h])]

/-- The first member stays or is exchanged, and the others are exchanged by the choices left. -/
theorem exists_exchange_cons (p : α → Bool) (q : α) (choices : List Bool) (x : α) :
    ∃ y choices', (y = x ∨ p x = true ∧ y = q) ∧
      ∀ xs, exchange p q choices (x :: xs) = y :: exchange p q choices' xs := by
  cases hx : p x with
  | false => exact ⟨x, choices, .inl rfl, exchange_cons_of_neg hx q choices⟩
  | true =>
    refine ⟨_, choices.tail, ?_, exchange_cons_of_pos hx q choices⟩
    split
    · exact .inr ⟨rfl, rfl⟩
    · exact .inl rfl

theorem exchange_append_of_neg (h : ∀ x ∈ xs, p x = false) (q : α) (choices : List Bool)
    (ys : List α) : exchange p q choices (xs ++ ys) = xs ++ exchange p q choices ys := by
  induction xs with
  | nil => rfl
  | cons x xs ih =>
    rw [List.forall_mem_cons] at h
    rw [List.cons_append, exchange_cons_of_neg h.1, ih h.2, List.cons_append]

theorem map_exchange (f : α → β) (p : β → Bool) (q : α) (choices : List Bool) (xs : List α) :
    (exchange (p ∘ f) q choices xs).map f = exchange p (f q) choices (xs.map f) := by
  induction xs generalizing choices with
  | nil => rfl
  | cons x xs ih =>
    rw [List.map_cons, exchange, exchange, Function.comp_apply]
    split
    · rw [List.map_cons, ih, apply_ite f]
    · rw [List.map_cons, ih]

/-- What is left out by the filter is not exchanged. -/
theorem filter_exchange {keep : α → Bool} (hq : keep q = true)
    (hp : ∀ x ∈ xs, p x = true → keep x = true) (choices : List Bool) :
    (exchange p q choices xs).filter keep = exchange p q choices (xs.filter keep) := by
  induction xs generalizing choices with
  | nil => rfl
  | cons x xs ih =>
    rw [List.forall_mem_cons] at hp
    cases hx : p x with
    | true =>
      have hnew : keep (if choices.headD false then q else x) = true := by
        split
        · exact hq
        · exact hp.1 hx
      rw [exchange_cons_of_pos hx, List.filter_cons_of_pos hnew, ih hp.2,
        List.filter_cons_of_pos (hp.1 hx), exchange_cons_of_pos hx]
    | false =>
      rw [exchange_cons_of_neg hx]
      cases hkeep : keep x with
      | true =>
        rw [List.filter_cons_of_pos hkeep, ih hp.2, List.filter_cons_of_pos hkeep,
          exchange_cons_of_neg hx]
      | false =>
        rw [List.filter_cons_of_neg (by simp [hkeep]), ih hp.2,
          List.filter_cons_of_neg (by simp [hkeep])]

theorem forall₂_exchange {r : α → α → Prop} (hrefl : ∀ x, r x x) (hp : ∀ x, p x = true → r x q)
    (choices : List Bool) (xs : List α) : List.Forall₂ r xs (exchange p q choices xs) := by
  induction xs generalizing choices with
  | nil => exact .nil
  | cons x xs ih =>
    obtain ⟨y, choices', hy, hxs⟩ := exists_exchange_cons p q choices x
    rw [hxs]
    refine .cons ?_ (ih choices')
    rcases hy with rfl | ⟨hx, rfl⟩
    · exact hrefl y
    · exact hp x hx

end NotationCalculator
