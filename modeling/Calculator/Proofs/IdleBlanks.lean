import Calculator.Proofs.Placement

/-!
# Blanks among the tokens

A blank among the tokens stands for nothing, and arranging passes over it.  There is one
place where it makes a difference.  A parenthesis opens a call only directly behind a name,
so a blank between the two turns the call into a bare name and a group.  One blank in each
such place is enough for this, and all other blanks are idle.
-/

namespace Calculator

namespace Token

/-- Whether the blanks behind a token keep it from opening a call. -/
def heldApart : Token → List Token → Bool
  | name text, blank :: rest =>
      (Constant.named? text).isNone && (rest.dropWhile (· = blank)).head? = some openParen
  | _, _ => false

/-- The tokens with a single blank where blanks keep a name from opening a call, and no other. -/
def withoutIdleBlanks : List Token → List Token
  | [] => []
  | blank :: rest => withoutIdleBlanks rest
  | token :: rest =>
      if token.heldApart rest then token :: blank :: withoutIdleBlanks rest
      else token :: withoutIdleBlanks rest

/-- Whether somewhere a name that could be called is followed by blanks and then a parenthesis. -/
def SeparatesCall (tokens : List Token) : Prop :=
  ∃ before text blanks after,
    tokens = before ++ .name text :: (blanks ++ .openParen :: after) ∧
    Constant.named? text = none ∧ blanks ≠ [] ∧ ∀ token ∈ blanks, token = .blank

theorem withoutIdleBlanks_blank (rest : List Token) :
    withoutIdleBlanks (blank :: rest) = withoutIdleBlanks rest := rfl

theorem withoutIdleBlanks_cons {token : Token} (h : token ≠ blank) (rest : List Token) :
    withoutIdleBlanks (token :: rest) =
      if token.heldApart rest then token :: blank :: withoutIdleBlanks rest
      else token :: withoutIdleBlanks rest := by
  cases token with
  | blank => exact absurd rfl h
  | number | operator | suffix | openParen | closeParen | comma | name => rfl

/-! ## Calls that blanks keep apart -/

theorem heldApart_eq_true {token : Token} {rest : List Token} (h : token.heldApart rest = true) :
    ∃ text after, token = name text ∧ rest = blank :: after ∧ Constant.named? text = none ∧
      (after.dropWhile (· = blank)).head? = some openParen := by
  unfold heldApart at h
  split at h
  · rename_i text after
    rw [Bool.and_eq_true, Option.isNone_iff_eq_none, decide_eq_true_eq] at h
    exact ⟨text, after, rfl, rfl, h.1, h.2⟩
  · cases h

theorem head?_withoutIdleBlanks (tokens : List Token) :
    (withoutIdleBlanks tokens).head? = (tokens.dropWhile (· = blank)).head? := by
  induction tokens with
  | nil => rfl
  | cons token rest ih =>
      by_cases hblank : token = blank
      · subst hblank
        exact ih
      · rw [withoutIdleBlanks_cons hblank, List.dropWhile_cons_of_neg (by simpa using hblank)]
        split <;> rfl

theorem not_opensCall_withoutIdleBlanks {token : Token} {rest : List Token}
    (hopens : ¬ OpensCall [token] rest) (hapart : token.heldApart rest = false) :
    ¬ OpensCall [token] (withoutIdleBlanks rest) := by
  rintro ⟨text, hlast, hnone, hhead⟩
  rw [head?_withoutIdleBlanks] at hhead
  cases hlast
  cases rest with
  | nil => cases hhead
  | cons next rest =>
      by_cases hblank : next = blank
      · subst hblank
        change (rest.dropWhile (· = blank)).head? = some openParen at hhead
        simp [heldApart, hnone, hhead] at hapart
      · rw [List.dropWhile_cons_of_neg (by simpa using hblank)] at hhead
        exact hopens ⟨text, rfl, hnone, hhead⟩

theorem separatesCall_of_heldApart {token : Token} {rest : List Token}
    (h : token.heldApart rest = true) : SeparatesCall (token :: rest) := by
  rcases heldApart_eq_true h with ⟨text, following, rfl, rfl, hnone, hhead⟩
  rcases List.head?_eq_some_iff.mp hhead with ⟨after, hafter⟩
  refine ⟨[], text, blank :: following.takeWhile (· = blank), after, ?_, hnone,
    List.cons_ne_nil _ _, ?_⟩
  · rw [List.cons_append, ← hafter, List.takeWhile_append_dropWhile]
    rfl
  · have hblanks := List.all_eq_true.mp (List.all_takeWhile (p := (· = blank)) (l := following))
    rw [List.forall_mem_cons]
    exact ⟨rfl, fun token htoken => of_decide_eq_true (hblanks token htoken)⟩

theorem heldApart_of_blanks {text : String} {blanks : List Token} (after : List Token)
    (hnone : Constant.named? text = none) (hne : blanks ≠ [])
    (hblanks : ∀ token ∈ blanks, token = blank) :
    (name text).heldApart (blanks ++ openParen :: after) = true := by
  cases blanks with
  | nil => exact absurd rfl hne
  | cons first blanks =>
      rw [List.forall_mem_cons] at hblanks
      rcases hblanks with ⟨rfl, hblanks⟩
      have hdrop : (blanks ++ openParen :: after).dropWhile (· = blank) = openParen :: after := by
        rw [List.dropWhile_append_of_pos
          (fun token htoken => decide_eq_true (hblanks token htoken))]
        rfl
      rw [List.cons_append, heldApart, hnone, hdrop]
      rfl

theorem separatesCall_cons {token : Token} {rest : List Token} :
    SeparatesCall (token :: rest) ↔ token.heldApart rest = true ∨ SeparatesCall rest := by
  constructor
  · rintro ⟨before, text, blanks, after, htokens, hnone, hne, hblanks⟩
    cases before with
    | nil =>
        cases htokens
        exact Or.inl (heldApart_of_blanks after hnone hne hblanks)
    | cons first before =>
        cases htokens
        exact Or.inr ⟨before, text, blanks, after, rfl, hnone, hne, hblanks⟩
  · rintro (hapart | ⟨before, text, blanks, after, rfl, hcall⟩)
    · exact separatesCall_of_heldApart hapart
    · exact ⟨token :: before, text, blanks, after, rfl, hcall⟩

theorem not_separatesCall_nil : ¬ SeparatesCall [] := by
  rintro ⟨before, text, blanks, after, htokens, _⟩
  cases before <;> cases htokens

instance decidableSeparatesCall : (tokens : List Token) → Decidable (SeparatesCall tokens)
  | [] => isFalse not_separatesCall_nil
  | _ :: rest =>
      have := decidableSeparatesCall rest
      decidable_of_iff _ separatesCall_cons.symm

/-! ## What is left out -/

theorem withoutIdleBlanks_eq_filter {tokens : List Token} (h : ¬ SeparatesCall tokens) :
    withoutIdleBlanks tokens = tokens.filter (· ≠ blank) := by
  induction tokens with
  | nil => rfl
  | cons token rest ih =>
      rw [separatesCall_cons, not_or] at h
      have hrest := ih h.2
      by_cases hblank : token = blank
      · subst hblank
        exact hrest
      · have hapart : token.heldApart rest = false :=
          Bool.eq_false_iff.mpr h.1
        rw [withoutIdleBlanks_cons hblank, hapart, hrest, if_neg Bool.false_ne_true]
        rw [List.filter_cons, if_pos (decide_eq_true hblank)]

theorem filter_withoutIdleBlanks (tokens : List Token) :
    (withoutIdleBlanks tokens).filter (· ≠ blank) = tokens.filter (· ≠ blank) := by
  induction tokens with
  | nil => rfl
  | cons token rest ih =>
      by_cases hblank : token = blank
      · subst hblank
        exact ih
      · rw [withoutIdleBlanks_cons hblank]
        split <;> simpa [hblank] using ih

theorem OpensCall.cons {before after : List Token} (h : OpensCall before after) (token : Token) :
    OpensCall (token :: before) after := by
  cases before with
  | nil => exact absurd h (Role.not_opensCall_nil after)
  | cons next before => exact Role.opensCall_cons_cons.mpr h

/-- Each blank that is left stands directly between a name and the parenthesis of its call. -/
theorem opensCall_of_withoutIdleBlanks {tokens before after : List Token}
    (h : withoutIdleBlanks tokens = before ++ blank :: after) : OpensCall before after := by
  induction tokens generalizing before with
  | nil => cases before <;> cases h
  | cons token rest ih =>
      by_cases hblank : token = blank
      · subst hblank
        exact ih h
      · rw [withoutIdleBlanks_cons hblank] at h
        cases before with
        | nil => split at h <;> exact absurd (List.cons.inj h).1 hblank
        | cons first before =>
            split at h
            · rename_i hapart
              rcases List.cons.inj h with ⟨rfl, hrest⟩
              cases before with
              | nil =>
                  rcases heldApart_eq_true hapart with ⟨text, following, rfl, rfl, hnone, hhead⟩
                  rw [← (List.cons.inj hrest).2]
                  refine ⟨text, rfl, hnone, ?_⟩
                  rw [withoutIdleBlanks_blank, head?_withoutIdleBlanks, hhead]
              | cons second before =>
                  exact ((ih (List.cons.inj hrest).2).cons second).cons token
            · rcases List.cons.inj h with ⟨rfl, hrest⟩
              exact (ih hrest).cons token

end Token

/-! ## Blanks among the roles -/

def Role.isBlank : Role → Bool
  | blank => true
  | operand _ | openGroup | openCall _ | close | comma | operator _ | suffix _ => false

theorem Role.isBlank_alone {token : Token} (h : token ≠ .blank) :
    (alone token).isBlank = false := by
  cases token with
  | blank => exact absurd rfl h
  | name text =>
      rw [alone]
      split <;> rfl
  | number | operator | suffix | openParen | closeParen | comma => rfl

theorem Role.filter_ofTokens_withoutIdleBlanks (tokens : List Token) :
    (ofTokens (Token.withoutIdleBlanks tokens)).filter (!·.isBlank) =
      (ofTokens tokens).filter (!·.isBlank) := by
  induction tokens using pieceInduction with
  | nil => rfl
  | single token rest hopens ih =>
      rw [ofTokens_single hopens]
      by_cases hblank : token = .blank
      · subst hblank
        exact ih
      · rw [Token.withoutIdleBlanks_cons hblank]
        have hkeep : (!(alone token).isBlank) = true := by rw [isBlank_alone hblank]; rfl
        cases hapart : token.heldApart rest with
        | true =>
            have hopens' : ¬ Token.OpensCall [token] (.blank :: Token.withoutIdleBlanks rest) := by
              rintro ⟨_, _, _, hhead⟩
              cases hhead
            rw [if_pos rfl, ofTokens_single hopens', List.filter_cons, List.filter_cons,
              if_pos hkeep, if_pos hkeep, ← ih]
            rfl
        | false =>
            have hopens' := Token.not_opensCall_withoutIdleBlanks hopens hapart
            rw [if_neg Bool.false_ne_true, ofTokens_single hopens', List.filter_cons,
              List.filter_cons, if_pos hkeep, if_pos hkeep, ih]
  | callee text rest hnone ih =>
      have hcallee : Token.withoutIdleBlanks (.name text :: .openParen :: rest) =
          .name text :: .openParen :: Token.withoutIdleBlanks rest := rfl
      rw [hcallee, ofTokens_callee hnone, ofTokens_callee hnone, List.filter_cons,
        List.filter_cons, ih]

/-! ## Arranging passes over blanks -/

namespace Arrangement

theorem place_of_isBlank {role : Role} (h : role.isBlank = true) (a : Arrangement) :
    a.place role = .ok a := by
  cases role with
  | blank => rfl
  | operand | openGroup | openCall | close | comma | operator | suffix => cases h

theorem placeAll_filter (a : Arrangement) (roles : List Role) :
    a.placeAll (roles.filter (!·.isBlank)) = a.placeAll roles := by
  induction roles generalizing a with
  | nil => rfl
  | cons role roles ih =>
      rw [List.filter_cons, placeAll_cons]
      cases hblank : role.isBlank with
      | true =>
          rw [place_of_isBlank hblank, Sequencing.ok_bind, ← ih]
          rfl
      | false =>
          rw [if_pos Bool.not_false, placeAll_cons]
          exact bind_congr ih

end Arrangement

theorem arrange_withoutIdleBlanks (tokens : List Token) :
    arrange (Token.withoutIdleBlanks tokens) = arrange tokens := by
  unfold arrange
  rw [← Arrangement.placeAll_filter, Role.filter_ofTokens_withoutIdleBlanks,
    Arrangement.placeAll_filter]

/--
Blanks can be left out wherever they stand, but for one in each place where they keep a name
from opening a call.
-/
theorem arrange_of_blanks :
    (∀ tokens, arrange tokens = arrange (Token.withoutIdleBlanks tokens) ∧
      (Token.withoutIdleBlanks tokens).filter (· ≠ .blank) = tokens.filter (· ≠ .blank) ∧
      ∀ before after, Token.withoutIdleBlanks tokens = before ++ .blank :: after →
        Token.OpensCall before after) ∧
    ∀ tokens, ¬ Token.SeparatesCall tokens →
      arrange tokens = arrange (tokens.filter (· ≠ .blank)) := by
  constructor
  · intro tokens
    exact ⟨(arrange_withoutIdleBlanks tokens).symm, Token.filter_withoutIdleBlanks tokens,
      fun _ _ => Token.opensCall_of_withoutIdleBlanks⟩
  · intro tokens h
    rw [← Token.withoutIdleBlanks_eq_filter h, arrange_withoutIdleBlanks]

theorem arrange_of_blanks_behind_constant :
    ∃ tokens, tokens = [.blank, Token.name "max", .openParen, .blank, .operator '-', .name "x",
        .blank, .comma, .name "pi", .blank, .openParen, .name "y", .blank, .closeParen,
        .suffix '!', .blank, .closeParen, .blank] ∧
      ¬ Token.SeparatesCall tokens ∧
      arrange tokens = .ok [.name "x", .operator .negate, .number Constant.pi.value, .name "y",
        .operator .factorial, .call "max" 2] := by
  refine ⟨_, rfl, by decide, ?_⟩
  rw [arrange_of_blanks.2 _ (by decide)]
  rfl

/-- A blank keeps `max (x,y)` from being a call, and then its comma is misplaced. -/
theorem arrange_of_blank_before_arguments :
    arrange [.name "max", .blank, .openParen, .name "x", .comma, .name "y", .closeParen] =
      .error .misplacedComma ∧
    arrange ([Token.name "max", .blank, .openParen, .name "x", .comma, .name "y",
        .closeParen].filter (· ≠ .blank)) =
      .ok [.name "x", .name "y", .call "max" 2] :=
  ⟨rfl, rfl⟩

end Calculator
