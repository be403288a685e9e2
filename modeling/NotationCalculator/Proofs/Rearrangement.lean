import NotationCalculator.Proofs.Reorderable

/-!
# What becomes of the tokens

A post-order text has the tokens of its in-order text, each as it was written, without the
parentheses. To follow them on their way, each is given its place in the in-order text. An operand
is put out as soon as it is read, so all that has been put out by then stood before it: operands
keep their order, and an operator never comes to stand before an operand that it stood behind.

An open parenthesis hides what waits below it, so a text within parentheses is brought into the same
post-order text as without them.
-/
namespace NotationCalculator.InOrder

open Text

/-- Every operand still stands before all that it stood before: what is in front of it now was in
front of it then. -/
def OperandsLead (numbered : List (String × ℕ)) : Prop :=
  numbered.Pairwise fun a b => IsOperand b.1 → a.2 < b.2

/-- What has been read before this place and is waiting: operators and open parentheses. -/
def WaitsBefore (n : ℕ) (waiting : List (String × ℕ)) : Prop :=
  ∀ entry ∈ waiting, (IsOperator entry.1 ∨ entry.1 = "(") ∧ entry.2 < n

variable {waiting numbered : List (String × ℕ)} {n : ℕ} {stack tokens listing : List String}
  {due : Bool} {token text : String}

theorem IsOperator.not_isOperand (h : IsOperator token) : ¬ IsOperand token := by
  rw [← kind_eq_operand_iff]
  rcases h with hkind | hkind <;> simp [hkind]

theorem WaitsBefore.not_isOperand (h : WaitsBefore n waiting) {entry : String × ℕ}
    (hentry : entry ∈ waiting) : ¬ IsOperand entry.1 := by
  rcases (h entry hentry).1 with hop | hopening
  · exact hop.not_isOperand
  · rw [hopening]
    decide

theorem WaitsBefore.mono {m : ℕ} (h : WaitsBefore n waiting) (hle : n ≤ m) :
    WaitsBefore m waiting := fun entry hentry =>
  ⟨(h entry hentry).1, (h entry hentry).2.trans_le hle⟩

theorem WaitsBefore.push (h : WaitsBefore n waiting) (htoken : IsOperator token ∨ token = "(") :
    WaitsBefore (n + 1) ((token, n) :: waiting) :=
  List.forall_mem_cons.mpr ⟨⟨htoken, Nat.lt_succ_self n⟩, h.mono (Nat.le_succ n)⟩

/-- Nothing but operators waits above an open parenthesis. -/
theorem WaitsBefore.filter_eq (h : WaitsBefore n waiting) (hnone : "(" ∉ waiting.map Prod.fst) :
    waiting.filter (!isParenthesis ·.1) = waiting := by
  refine List.filter_eq_self.mpr fun entry hentry => ?_
  rcases (h entry hentry).1 with hop | hopening
  · rw [isParenthesis_eq_false (.inr hop)]
    rfl
  · exact absurd (List.mem_map.mpr ⟨entry, hentry, hopening⟩) hnone

/-- What is put out before anything that is still to come does not overtake it. -/
theorem WaitsBefore.operandsLead_append (h : WaitsBefore n waiting) (hlead : OperandsLead numbered)
    (hlater : ∀ entry ∈ numbered, IsOperand entry.1 → n ≤ entry.2) :
    OperandsLead (waiting ++ numbered) := by
  refine List.pairwise_append.mpr ⟨?_, hlead, fun a ha b hb hoperand => ?_⟩
  · exact List.pairwise_of_forall_mem_list fun a _ b hb hoperand =>
      absurd hoperand (h.not_isOperand hb)
  · exact (h a ha).2.trans_le (hlater b hb hoperand)

/-- The operands that come out from some place on stood behind it. -/
theorem WaitsBefore.le_of_perm (h : WaitsBefore n waiting) {p : String × ℕ → Bool}
    (hperm : numbered.Perm ((waiting ++ tokens.zipIdx n).filter p)) :
    ∀ entry ∈ numbered, IsOperand entry.1 → n ≤ entry.2 := by
  intro entry hentry hoperand
  rcases List.mem_append.mp (List.mem_of_mem_filter (hperm.mem_iff.mp hentry)) with hmem | hmem
  · exact absurd hoperand (h.not_isOperand hmem)
  · exact List.le_snd_of_mem_zipIdx hmem

/-- A token that is read takes its place among all those that have not come out yet. -/
theorem perm_filter_append_cons {p : String × ℕ → Bool} {kept rest : List (String × ℕ)}
    {entry : String × ℕ} (released : List (String × ℕ)) (hreleased : released.filter p = released)
    (hperm : numbered.Perm ((entry :: (kept ++ rest)).filter p)) :
    (released ++ numbered).Perm ((released ++ kept ++ entry :: rest).filter p) := by
  rw [List.append_assoc, List.filter_append, hreleased]
  exact (hperm.trans (List.perm_middle.symm.filter p)).append_left released

/-- The tokens that wait and those that are read come out without the parentheses, and no operand is
overtaken. -/
theorem exists_numbered (h : reorderFrom (waiting.map Prod.fst) due tokens = some listing)
    (hwaiting : WaitsBefore n waiting) :
    ∃ numbered : List (String × ℕ), numbered.map Prod.fst = listing ∧
      numbered.Perm ((waiting ++ tokens.zipIdx n).filter (!isParenthesis ·.1)) ∧
      OperandsLead numbered := by
  induction tokens generalizing waiting due listing n with
  | nil =>
    rw [reorderFrom] at h
    split at h
    · cases h
    · next hnone =>
      have hlead : OperandsLead (waiting ++ []) := hwaiting.operandsLead_append .nil (by simp)
      rw [List.append_nil] at hlead
      refine ⟨waiting, Option.some.inj h, ?_, hlead⟩
      rw [List.zipIdx_nil, List.append_nil, hwaiting.filter_eq hnone]
  | cons token tokens ih =>
    rw [List.zipIdx_cons]
    obtain ⟨hkind, rfl, out, hread, rfl⟩ |
      ⟨hop, released, kept, out, hsplit, hnone, hread, rfl⟩ | ⟨rfl, rfl, hread⟩ |
      ⟨rfl, released, kept, out, hsplit, hnone, hread, rfl⟩ := reorderFrom_cons_cases h
    · have hnext := hwaiting.mono (Nat.le_succ n)
      obtain ⟨numbered, rfl, hperm, hlead⟩ := ih hread hnext
      refine ⟨(token, n) :: numbered, rfl, ?_, ?_⟩
      · have hkeep := isParenthesis_eq_false (.inl hkind)
        refine perm_filter_append_cons [] rfl ?_
        rw [List.filter_cons_of_pos (by simp [hkeep])]
        exact hperm.cons (token, n)
      · exact List.pairwise_cons.mpr ⟨hnext.le_of_perm hperm, hlead⟩
    · obtain ⟨released, kept, rfl, rfl, rfl⟩ := List.map_eq_append_iff.mp hsplit
      have hboth := List.forall_mem_append.mp hwaiting
      have hnext := WaitsBefore.push hboth.2 (.inl hop)
      have hnumbered : reorderFrom (((token, n) :: kept).map Prod.fst) _ tokens = some out := hread
      obtain ⟨numbered, rfl, hperm, hlead⟩ := ih hnumbered hnext
      refine ⟨released ++ numbered, List.map_append, ?_, ?_⟩
      · exact perm_filter_append_cons released (WaitsBefore.filter_eq hboth.1 hnone) hperm
      · exact WaitsBefore.operandsLead_append hboth.1 hlead fun entry hentry hoperand =>
          Nat.le_of_succ_le (hnext.le_of_perm hperm entry hentry hoperand)
    · have hnext := hwaiting.push (.inr rfl)
      have hnumbered :
          reorderFrom ((("(", n) :: waiting).map Prod.fst) true tokens = some listing := hread
      obtain ⟨numbered, rfl, hperm, hlead⟩ := ih hnumbered hnext
      exact ⟨numbered, rfl, perm_filter_append_cons [] rfl hperm, hlead⟩
    · obtain ⟨released, inner, rfl, rfl, hinner⟩ := List.map_eq_append_iff.mp hsplit
      obtain ⟨opening, kept, rfl, hopening, rfl⟩ := List.map_eq_cons_iff.mp hinner
      have hboth := List.forall_mem_append.mp hwaiting
      have hnext := WaitsBefore.mono (List.forall_mem_cons.mp hboth.2).2 (Nat.le_succ n)
      obtain ⟨numbered, rfl, hperm, hlead⟩ := ih hread hnext
      refine ⟨released ++ numbered, List.map_append, ?_, ?_⟩
      · refine perm_filter_append_cons released (WaitsBefore.filter_eq hboth.1 hnone) ?_
        rw [List.filter_cons_of_neg (by simp [isParenthesis]), List.cons_append,
          List.filter_cons_of_neg (by simp [isParenthesis, hopening])]
        exact hperm
      · exact WaitsBefore.operandsLead_append hboth.1 hlead fun entry hentry hoperand =>
          Nat.le_of_succ_le (hnext.le_of_perm hperm entry hentry hoperand)

/-- Operands that are not overtaken keep their order. -/
theorem OperandsLead.filter_eq (h : OperandsLead numbered)
    (hperm : numbered.Perm (tokens.zipIdx.filter (!isParenthesis ·.1))) :
    (numbered.map Prod.fst).filter (IsOperand ·) = tokens.filter (IsOperand ·) := by
  have hplaces : tokens.zipIdx.Pairwise (·.2 < ·.2) := by
    have hrange := List.pairwise_lt_range' (s := 0) (n := tokens.length) 1
    rw [← List.zipIdx_map_snd 0 tokens] at hrange
    exact List.pairwise_map.mp hrange
  have hnumbered : (numbered.filter (IsOperand ·.1)).Pairwise (·.2 < ·.2) :=
    List.pairwise_filter.mpr (h.imp fun hlt _ hoperand => hlt (of_decide_eq_true hoperand))
  have hoperands :
      (numbered.filter (IsOperand ·.1)).Perm (tokens.zipIdx.filter (IsOperand ·.1)) := by
    have hkept : ∀ entry ∈ tokens.zipIdx,
        (decide (IsOperand entry.1) && !isParenthesis entry.1) = decide (IsOperand entry.1) := by
      intro entry _
      by_cases hoperand : IsOperand entry.1
      · rw [isParenthesis_eq_false (.inl (kind_eq_operand_iff.mpr hoperand)), Bool.not_false,
          Bool.and_true]
      · rw [decide_eq_false hoperand, Bool.false_and]
    have hfilter := hperm.filter (IsOperand ·.1)
    rwa [List.filter_filter, List.filter_congr hkept] at hfilter
  have hsame : numbered.filter (IsOperand ·.1) = tokens.zipIdx.filter (IsOperand ·.1) :=
    List.Perm.eq_of_pairwise (fun a b _ _ hab hba => absurd hab (Nat.lt_asymm hba)) hnumbered
      (hplaces.filter _) hoperands
  calc (numbered.map Prod.fst).filter (IsOperand ·)
      = (numbered.filter (IsOperand ·.1)).map Prod.fst := List.filter_map
    _ = (tokens.zipIdx.filter (IsOperand ·.1)).map Prod.fst := by rw [hsame]
    _ = (tokens.zipIdx.map Prod.fst).filter (IsOperand ·) := by rw [List.filter_map]; rfl
    _ = tokens.filter (IsOperand ·) := by rw [List.zipIdx_map_fst]

theorem span_append_opening {p : String → Bool} (hp : p "(" = false) {released kept : List String}
    (hspan : stack.span p = (released, kept)) (below : List String) :
    (stack ++ "(" :: below).span p = (released, kept ++ "(" :: below) := by
  rw [List.span_eq_takeWhile_dropWhile] at hspan ⊢
  obtain ⟨rfl, rfl⟩ := Prod.mk.inj hspan
  induction stack with
  | nil => simp [hp]
  | cons other stack ih =>
    cases hother : p other with
    | true =>
      have hrest := Prod.mk.inj (ih rfl)
      rw [List.cons_append, List.takeWhile_cons_of_pos hother, List.dropWhile_cons_of_pos hother,
        List.takeWhile_cons_of_pos hother, List.dropWhile_cons_of_pos hother, hrest.1, hrest.2]
    | false => simp [hother]

/-- What a token can do it can also do within parentheses, and leaves alone what waits outside. -/
theorem Moves.enclosed {released kept : List String} {due' : Bool}
    (h : Moves stack due token released kept due') (below : List String) :
    Moves (stack ++ "(" :: below) due token released (kept ++ "(" :: below) due' := by
  cases h with
  | operand hkind => exact .operand hkind
  | operator hop hspan => exact .operator hop (span_append_opening (by simp) hspan below)
  | opening => exact .opening
  | closing hnone =>
    rw [List.append_assoc, List.cons_append]
    exact .closing hnone

/-- Between parentheses the tokens are brought into the same order as by themselves, whatever waits
outside. -/
theorem exists_reorderFrom_enclosed (h : reorderFrom stack due tokens = some listing)
    (below : List String) : ∃ due', ∀ rest,
      reorderFrom (stack ++ "(" :: below) due (tokens ++ ")" :: rest) =
        (reorderFrom below due' rest).map (listing ++ ·) := by
  induction tokens generalizing stack due listing with
  | nil =>
    rw [reorderFrom] at h
    split at h
    · cases h
    · next hnone =>
      obtain rfl := Option.some.inj h
      exact ⟨due, (Moves.closing hnone).reorderFrom_cons⟩
  | cons token tokens ih =>
    obtain ⟨released, kept, due₁, hmoves⟩ | hnone := exists_moves stack due token
    · rw [hmoves.reorderFrom_cons] at h
      obtain ⟨out, hread, rfl⟩ := Option.map_eq_some_iff.mp h
      obtain ⟨due', hrest⟩ := ih hread
      refine ⟨due', fun rest => ?_⟩
      rw [List.cons_append, (hmoves.enclosed below).reorderFrom_cons, hrest, Option.map_map]
      simp [Function.comp_def]
    · rw [hnone] at h
      cases h

theorem reorderTokens_enclosed (h : reorderTokens tokens = some listing) :
    reorderTokens ("(" :: tokens ++ [")"]) = some listing := by
  obtain ⟨due, hrest⟩ := exists_reorderFrom_enclosed h []
  have hnil : reorderFrom [] due [] = some [] := rfl
  have hread := hrest []
  rw [List.nil_append, hnil, Option.map_some, List.append_nil] at hread
  rw [reorderTokens, List.cons_append, reorderFrom_opening, hread]

theorem tokens_enclosed (text : String) :
    InOrder.tokens ("(" ++ text ++ ")") = "(" :: InOrder.tokens text ++ [")"] := by
  have hspace : isBlank ' ' = true := by decide
  have hopening : splitWords ['('] = [['(']] := splitWords_word (by decide)
  have hclosing : splitWords [')', ' '] = [[')']] := by decide
  have hpad : padParentheses ("(" ++ text ++ ")").toList =
      ' ' :: (['('] ++ ' ' :: (padParentheses text.toList ++ ' ' :: [')', ' '])) := by
    rw [String.toList_append, String.toList_append, padParentheses_append, padParentheses_append,
      List.append_assoc]
    rfl
  rw [InOrder.tokens, hpad, splitWords_cons_blank hspace, splitWords_append_cons_blank hspace,
    splitWords_append_cons_blank hspace, hopening, hclosing, List.map_append, List.map_append]
  rfl

/-- The post-order text has no parenthesis and all other tokens of its in-order text as they were
written, the operands in their order. Moreover no operand comes to stand behind anything that it
stood before, which the places of the tokens in the in-order text show. Another pair of parentheses
around the text changes nothing. -/
theorem reorder_rearranges {settings : Settings} {last : Binary64} {text translation : String}
    (h : (⟨.inOrder, settings, last⟩ : Calculator).reorder text = some translation) :
    let c : Calculator := ⟨.inOrder, settings, last⟩
    let tokens := InOrder.tokens text
    let listing := words translation
    (∀ token ∈ listing, isParenthesis token = false) ∧
    listing.Perm (tokens.filter (!isParenthesis ·)) ∧
    listing.filter (IsOperand ·) = tokens.filter (IsOperand ·) ∧
    (∃ numbered : List (String × ℕ), numbered.map Prod.fst = listing ∧
      numbered.Perm (tokens.zipIdx.filter (!isParenthesis ·.1)) ∧ OperandsLead numbered) ∧
    c.reorder ("(" ++ text ++ ")") = some translation := by
  intro c tokens listing
  have htext : (reorderTokens tokens).map (" ".intercalate ·) = some translation := h
  obtain ⟨out, hout, rfl⟩ := Option.map_eq_some_iff.mp htext
  have hwords : listing = out := words_reorder hout
  rw [hwords]
  have hperm := reorderFrom_perm hout
  rw [List.filter_nil, List.nil_append] at hperm
  have hstart : reorderFrom (([] : List (String × ℕ)).map Prod.fst) true tokens = some out := hout
  have hempty : WaitsBefore 0 [] := by simp [WaitsBefore]
  obtain ⟨numbered, hlisting, hnumbered, hlead⟩ := exists_numbered hstart hempty
  refine ⟨fun token htoken => ?_, hperm, ?_, ⟨numbered, hlisting, hnumbered, hlead⟩, ?_⟩
  · have hkept := (List.mem_filter.mp (hperm.mem_iff.mp htoken)).2
    simpa using hkept
  · rw [← hlisting]
    exact hlead.filter_eq hnumbered
  · show (reorderTokens (InOrder.tokens ("(" ++ text ++ ")"))).map (" ".intercalate ·) = _
    rw [tokens_enclosed, reorderTokens_enclosed hout, Option.map_some]

/-- A text with a parenthesis that is closed early, and twice the same operator. -/
theorem reorder_rearranges_of_closed_early :
    let c : Calculator := ⟨.inOrder, {}, .nan⟩
    let text := "1 + (2 - ) 3 ! - 4"
    let tokens := ["1", "+", "(", "2", "-", ")", "3", "!", "-", "4"]
    let listing := ["1", "2", "-", "3", "!", "+", "4", "-"]
    c.reorder text = some "1 2 - 3 ! + 4 -" ∧
      listing.Perm (tokens.filter (!isParenthesis ·)) ∧
      listing.filter (IsOperand ·) = tokens.filter (IsOperand ·) ∧
      (∃ numbered : List (String × ℕ), numbered.map Prod.fst = listing ∧
        numbered.Perm (tokens.zipIdx.filter (!isParenthesis ·.1)) ∧ OperandsLead numbered) ∧
      c.reorder "(1 + (2 - ) 3 ! - 4)" = some "1 2 - 3 ! + 4 -" := by
  intro c text tokens listing
  have htranslation : c.reorder text = some "1 2 - 3 ! + 4 -" := by decide
  have htokens : InOrder.tokens text = tokens := by decide
  have hlisting : words "1 2 - 3 ! + 4 -" = listing := by decide
  obtain ⟨-, hperm, hoperands, hnumbered, henclosed⟩ := reorder_rearranges htranslation
  rw [htokens, hlisting] at hperm hoperands hnumbered
  exact ⟨htranslation, hperm, hoperands, hnumbered, henclosed⟩

end NotationCalculator.InOrder
