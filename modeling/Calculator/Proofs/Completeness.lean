import Calculator.Proofs.Precedence
import Calculator.Proofs.SurplusValues

/-!
# Expressions with a value are sentences

Every accepted expression in which no operand follows another directly is a
sentence of the grammar, unless it contains an empty group.  An arrangement says
enough about the tokens that it has read to show this.  Where an operand is expected,
each pending operator stands behind a phrase that may be its left operand, and each
pending call behind arguments that are complete.  Elsewhere a phrase has just ended.
A release completes the phrases of the released operators from the inside out.

An expression with a value has no operands side by side, because the surplus would be
left on the stack.  This is as far as values go: an empty group puts nothing on the
stack, and it may make up for a surplus, as in `2 3+()`.
-/

namespace Calculator

/-! ## Tokens in front of an operand -/

namespace Pending

/-- The loosest kind of phrase that may stand behind what is pending. -/
def openLevel : List Pending → Level
  | .operator op :: _ => op.rightLevel
  | _ => .sum

end Pending

/-- Tokens behind which an operand comes next, and what is then pending. -/
inductive Awaits : List Token → List Pending → Prop where
  | start : Awaits [] []
  | group {tokens : List Token} {pending : List Pending} :
      Awaits tokens pending → Awaits (tokens ++ [.openParen]) (.group :: pending)
  | call {tokens : List Token} {pending : List Pending} {function : String}
      (arguments : List (List Token × Expression)) :
      Constant.named? function = none → Awaits tokens pending →
      (∀ argument ∈ arguments, Derives .sum argument.1 argument.2) →
      Awaits
        (tokens ++ .name function :: .openParen ::
          arguments.flatMap fun argument => argument.1 ++ [.comma])
        (.call function arguments.length :: pending)
  | between {tokens left : List Token} {pending : List Pending} {op : Operator}
      {x : Expression} :
      op.operandCount = 2 → Awaits tokens pending →
      (Pending.openLevel pending).rank ≤ op.level.rank → Derives op.leftLevel left x →
      Awaits (tokens ++ (left ++ [.operator op.symbol])) (.operator op :: pending)
  | negation {tokens : List Token} {pending : List Pending} :
      Awaits tokens pending → Awaits (tokens ++ [.operator '-']) (.operator .negate :: pending)

theorem Awaits.openLevel_rank_le {tokens : List Token} {pending : List Pending}
    (h : Awaits tokens pending) : (Pending.openLevel pending).rank ≤ Level.negation.rank := by
  cases h with
  | start => decide
  | group _ => exact (by decide : Level.sum.rank ≤ Level.negation.rank)
  | call _ _ _ _ => exact (by decide : Level.sum.rank ≤ Level.negation.rank)
  | negation _ => exact Nat.le_refl _
  | between two hawaits hlevel hleft =>
      rename_i op x
      show op.rightLevel.rank ≤ _
      cases op <;> first
        | decide
        | cases two

/-! ## Tokens that end with a phrase -/

/-- A phrase of some kind has just ended, at a place where this kind may stand. -/
def EndsIn (tokens : List Token) (pending : List Pending) (level : Level) : Prop :=
  ∃ before phrase x, tokens = before ++ phrase ∧ Awaits before pending ∧
    (Pending.openLevel pending).rank ≤ level.rank ∧ Derives level phrase x

variable {tokens word : List Token} {pending : List Pending}

theorem Awaits.endsIn {x : Expression} (h : Awaits tokens pending)
    (hword : Derives .primary word x) : EndsIn (tokens ++ word) pending .suffix := by
  have hrank := Nat.le_trans h.openLevel_rank_le
    (by decide : Level.negation.rank ≤ Level.suffix.rank)
  exact ⟨tokens, word, x, rfl, h, hrank, hword.of_rank_le (by decide)⟩

theorem EndsIn.pop {op : Operator} {level : Level}
    (h : EndsIn tokens (.operator op :: pending) level) : EndsIn tokens pending op.level := by
  rcases h with ⟨before, phrase, x, rfl, hawaits, hrank, hphrase⟩
  have hright := hphrase.of_rank_le hrank
  cases hawaits with
  | between two hawaits hlevel hleft =>
      exact ⟨_, _, _, by simp, hawaits, hlevel, Derives.binary two hleft hright⟩
  | negation hawaits =>
      exact ⟨_, _, _, by simp, hawaits, hawaits.openLevel_rank_le, hright.negation⟩

theorem EndsIn.release {p : Operator → Bool} {level bound : Level}
    (h : EndsIn tokens pending level) (hbound : bound.rank ≤ level.rank)
    (hp : ∀ op, p op = true → bound.rank ≤ op.level.rank) (output : List Instruction) :
    ∃ tight, EndsIn tokens (Pending.release p output pending).2 tight ∧
      bound.rank ≤ tight.rank := by
  induction pending generalizing level output with
  | nil => exact ⟨level, h, hbound⟩
  | cons entry pending ih =>
      cases entry with
      | group => exact ⟨level, h, hbound⟩
      | call function commas => exact ⟨level, h, hbound⟩
      | operator op =>
          rw [Pending.release]
          cases hop : p op with
          | true => exact ih h.pop (hp op hop) (.operator op :: output)
          | false => exact ⟨level, h, hbound⟩

theorem EndsIn.drain {level : Level} (h : EndsIn tokens pending level)
    {output after : List Instruction} {below : List Pending}
    (hdrain : Pending.drain output pending = (after, below)) :
    ∃ before phrase x, tokens = before ++ phrase ∧ Awaits before below ∧
      Derives .sum phrase x := by
  rcases h.release (p := fun _ => true) level.sum_rank_le (fun op _ => op.level.sum_rank_le)
    output with ⟨tight, hends, _⟩
  rw [← Pending.drain, hdrain] at hends
  rcases hends with ⟨before, phrase, x, htokens, hawaits, _, hphrase⟩
  exact ⟨before, phrase, x, htokens, hawaits, hphrase.of_rank_le tight.sum_rank_le⟩

/-! ## Steps -/

/-- What has been read, by what has to come next. -/
structure Reads (tokens : List Token) (a : Arrangement) : Prop where
  awaits : a.previous.expectsOperand = true → Awaits tokens a.pending
  endsIn : a.previous.expectsOperand = false → EndsIn tokens a.pending .suffix

variable {a b : Arrangement} {role : Role}

theorem Reads.of_awaits (hexpects : a.previous.expectsOperand = true)
    (h : Awaits tokens a.pending) : Reads tokens a := by
  constructor
  · intro _
    exact h
  · intro hclosed
    rw [hexpects] at hclosed
    cases hclosed

theorem Reads.of_endsIn (hclosed : a.previous.expectsOperand = false)
    (h : EndsIn tokens a.pending .suffix) : Reads tokens a := by
  constructor
  · intro hexpects
    rw [hclosed] at hexpects
    cases hexpects
  · intro _
    exact h

theorem expectsOperand_of_joinedTo {previous : Previous} (hstarts : role.startsOperand = true)
    (h : role.joinedTo previous = 0) : previous.expectsOperand = true := by
  rw [Role.joinedTo, hstarts] at h
  cases hexpects : previous.expectsOperand with
  | true => rfl
  | false =>
      rw [hexpects] at h
      cases h

theorem openLevel_rank_le_of_stop {op : Operator} {pending : List Pending}
    (hstop : ∀ waiting below, pending = .operator waiting :: below → op.yieldsTo waiting = false) :
    (Pending.openLevel pending).rank ≤ op.level.rank := by
  cases pending with
  | nil => exact op.level.sum_rank_le
  | cons entry below =>
      cases entry with
      | group => exact op.level.sum_rank_le
      | call function commas => exact op.level.sum_rank_le
      | operator waiting =>
          exact Operator.not_yieldsTo_iff.mp (hstop waiting below rfl)

theorem comma_intercalate (arguments : List (List Token × Expression))
    (last : List Token × Expression) :
    (arguments.flatMap fun argument => argument.1 ++ [.comma]) ++ last.1 =
      [Token.comma].intercalate ((arguments ++ [last]).map Prod.fst) := by
  induction arguments with
  | nil => simp
  | cons first rest ih =>
      rw [List.flatMap_cons, List.append_assoc, ih, List.cons_append, List.map_cons]
      rw [List.intercalate_cons_of_ne_nil (by simp)]

theorem Arrangement.Step.reads (h : Step a role b) (hword : Role.Spells word role)
    (hjoined : role.joinedTo a.previous = 0) (hempty : a.InEmptyGroup → role ≠ .close)
    (hreads : Reads tokens a) : Reads (tokens ++ word) b := by
  cases h with
  | operand _ instruction =>
      have hawaits := hreads.awaits (expectsOperand_of_joinedTo rfl hjoined)
      cases hword with
      | number value => exact .of_endsIn rfl (hawaits.endsIn (.number value))
      | constant hconstant => exact .of_endsIn rfl (hawaits.endsIn (.constant hconstant))
      | name hnone => exact .of_endsIn rfl (hawaits.endsIn (.name hnone))
  | openGroup =>
      have hawaits := hreads.awaits (expectsOperand_of_joinedTo rfl hjoined)
      cases hword
      exact .of_awaits rfl hawaits.group
  | openCall _ function =>
      have hawaits := hreads.awaits (expectsOperand_of_joinedTo rfl hjoined)
      cases hword with
      | openCall hnone => exact .of_awaits rfl (.call [] hnone hawaits (by simp))
  | negation hexpects =>
      cases hword
      exact .of_awaits rfl (hreads.awaits hexpects).negation
  | between two hexpects =>
      rename_i op
      cases hword
      -- the phrases of the released operators end, and what they were part of waits on
      rcases (hreads.endsIn hexpects).release (Operator.rank_leftLevel_le_suffix two)
        (fun _ => (Operator.yieldsTo_iff two).mp) a.output with ⟨tight, hends, htight⟩
      rcases Pending.exists_of_release op.yieldsTo a.output a.pending with
        ⟨waiting, rest, _, hrelease, _, hstop⟩
      rw [hrelease] at hends
      rcases hends with ⟨before, phrase, x, rfl, hawaits, _, hphrase⟩
      have hlevel := openLevel_rank_le_of_stop hstop
      rw [List.append_assoc, Arrangement.addOperator, hrelease]
      exact .of_awaits rfl (.between two hawaits hlevel (hphrase.of_rank_le htight))
  | suffix hexpects =>
      cases hword
      rcases hreads.endsIn hexpects with ⟨before, phrase, x, rfl, hawaits, hrank, hphrase⟩
      exact .of_endsIn rfl ⟨before, _, _, List.append_assoc _ _ _, hawaits, hrank, hphrase.suffix⟩
  | comma hexpects hdrain =>
      cases hword
      rcases (hreads.endsIn hexpects).drain hdrain with ⟨before, phrase, x, rfl, hawaits, hphrase⟩
      cases hawaits with
      | call arguments hnone hawaits harguments =>
          have hall : ∀ argument ∈ arguments ++ [(phrase, x)],
              Derives .sum argument.1 argument.2 :=
            List.forall_mem_append.mpr ⟨harguments, List.forall_mem_singleton.mpr hphrase⟩
          have hcall := Awaits.call _ hnone hawaits hall
          rw [List.length_append] at hcall
          refine .of_awaits rfl ?_
          simpa using hcall
  | closeGroup hexpects hdrain =>
      cases hword
      rcases (hreads.endsIn hexpects).drain hdrain with ⟨before, phrase, x, rfl, hawaits, hphrase⟩
      cases hawaits with
      | group hawaits =>
          have hends := hawaits.endsIn hphrase.group
          refine .of_endsIn rfl ?_
          simpa using hends
  | closeCall hexpects hdrain =>
      cases hword
      rcases (hreads.endsIn hexpects).drain hdrain with ⟨before, phrase, x, rfl, hawaits, hphrase⟩
      cases hawaits with
      | call arguments hnone hawaits harguments =>
          have hall : ∀ argument ∈ arguments ++ [(phrase, x)],
              Derives .sum argument.1 argument.2 :=
            List.forall_mem_append.mpr ⟨harguments, List.forall_mem_singleton.mpr hphrase⟩
          -- the last argument has no comma behind it
          have hends := hawaits.endsIn (.call hnone hall)
          rw [← comma_intercalate] at hends
          refine .of_endsIn rfl ?_
          simpa using hends
  | closeEmptyGroup => exact absurd rfl (hempty ⟨rfl, rfl⟩)
  | closeEmptyCall output function pending =>
      cases hword
      have hawaits := hreads.awaits rfl
      -- without a comma there are no arguments yet
      generalize hcommas : 0 = commas at hawaits
      cases hawaits with
      | call arguments hnone hawaits harguments =>
          rw [List.eq_nil_of_length_eq_zero hcommas.symm]
          have hends := hawaits.endsIn (@Derives.call function [] hnone (by simp))
          refine .of_endsIn rfl ?_
          simpa using hends

/-! ## Whole expressions -/

theorem reads_of_placeAll (hblank : .blank ∉ tokens) (hempty : ¬ HasEmptyGroup tokens)
    (hcount : juxtapositions tokens = 0)
    (h : Arrangement.start.placeAll (Role.ofTokens tokens) = .ok b) : Reads tokens b := by
  rcases Role.exists_spelling hblank with ⟨words, hwords, hspells⟩
  -- what has been read and the words of the roles to come make up the tokens
  have hlast : ∃ before words, before ++ words.flatten = tokens ∧
      List.Forall₂ Role.Spells words [] ∧ Role.juxtapositionsAfter b.previous [] = 0 ∧
      Reads before b := by
    refine Arrangement.placeAll_start_induction (motive := fun a roles => ∃ before words,
      before ++ words.flatten = tokens ∧ List.Forall₂ Role.Spells words roles ∧
      Role.juxtapositionsAfter a.previous roles = 0 ∧ Reads before a) ?_ hblank hempty ?_ h
    · intro a role roles next hstep _ hclose hmotive
      rcases hmotive with ⟨before, words, hbefore, hspells, hnone, hreads⟩
      rcases List.forall₂_cons_right_iff.mp hspells with ⟨word, rest, hword, hrest, rfl⟩
      rw [Role.juxtapositionsAfter, Nat.add_eq_zero_iff, ← hstep.previous_eq] at hnone
      refine ⟨before ++ word, rest, ?_, hrest, hnone.2, hstep.reads hword hnone.1 hclose hreads⟩
      rw [List.append_assoc, ← List.flatten_cons]
      exact hbefore
    · refine ⟨[], words, hwords, hspells, ?_, .of_awaits rfl .start⟩
      exact (Role.juxtapositionsAfter_start hblank).trans hcount
  rcases hlast with ⟨before, words, hbefore, hnil, _, hreads⟩
  cases hnil
  rw [List.flatten_nil, List.append_nil] at hbefore
  rw [← hbefore]
  exact hreads

theorem isSentence_of_arrange {program : Program} (hblank : .blank ∉ tokens)
    (htokens : tokens ≠ []) (hempty : ¬ HasEmptyGroup tokens)
    (hcount : juxtapositions tokens = 0) (h : arrange tokens = .ok program) :
    IsSentence tokens := by
  rcases Sequencing.bind_eq_ok.mp h with ⟨a, hplace, hfinish⟩
  rcases Arrangement.previous_ne_start_of_placeAll Arrangement.coherent_start
    (Role.proper_of_mem_ofTokens hblank) (Role.ofTokens_ne_nil htokens) hplace with
    ⟨hcoherent, hstart⟩
  rcases Arrangement.drain_of_finish hcoherent hstart hfinish with ⟨hclosed, hdrain⟩
  have hreads := reads_of_placeAll hblank hempty hcount hplace
  rcases (hreads.endsIn hclosed).drain hdrain with ⟨before, phrase, x, rfl, hawaits, hphrase⟩
  cases hawaits
  exact ⟨x, hphrase⟩

/-! ## Sentences have no empty groups -/

namespace Role

structure Enclosable (roles : List Role) : Prop where
  ne_nil : roles ≠ []
  head_ne_close : ∀ role ∈ roles.head?, role ≠ close
  last_ne_openGroup : ∀ role ∈ roles.getLast?, role ≠ openGroup
  noEmptyGroup : NoEmptyGroup roles

variable {first second roles : List Role} {role : Role}

theorem enclosable_singleton (hclose : role ≠ close) (hopen : role ≠ openGroup) :
    Enclosable [role] :=
  ⟨List.cons_ne_nil _ _, by simpa using hclose, by simpa using hopen, .singleton role⟩

theorem Enclosable.append (hfirst : Enclosable first) (hsecond : Enclosable second) :
    Enclosable (first ++ second) := by
  refine ⟨List.append_ne_nil_of_left_ne_nil hfirst.ne_nil second, ?_, ?_, ?_⟩
  · rw [List.head?_append_of_ne_nil _ hfirst.ne_nil]
    exact hfirst.head_ne_close
  · rw [List.getLast?_append_of_ne_nil _ hsecond.ne_nil]
    exact hsecond.last_ne_openGroup
  · rw [NoEmptyGroup, List.isChain_append]
    refine ⟨hfirst.noEmptyGroup, hsecond.noEmptyGroup, ?_⟩
    intro role hlast next _ hopen
    exact absurd hopen (hfirst.last_ne_openGroup role hlast)

theorem Enclosable.openGroup_cons (h : Enclosable roles) : Enclosable (openGroup :: roles) := by
  refine ⟨List.cons_ne_nil _ _, by simp, ?_, ?_⟩
  · rw [List.getLast?_cons_of_ne_nil h.ne_nil]
    exact h.last_ne_openGroup
  · rw [NoEmptyGroup, List.isChain_cons]
    constructor
    · intro next hnext _
      exact h.head_ne_close next hnext
    · exact h.noEmptyGroup

theorem Enclosable.concat_close (h : Enclosable roles) : Enclosable (roles ++ [close]) := by
  refine ⟨List.append_ne_nil_of_left_ne_nil h.ne_nil _, ?_, by simp, ?_⟩
  · rw [List.head?_append_of_ne_nil _ h.ne_nil]
    exact h.head_ne_close
  · rw [NoEmptyGroup, List.isChain_append]
    refine ⟨h.noEmptyGroup, .singleton close, ?_⟩
    intro role hlast next _ hopen
    exact absurd hopen (h.last_ne_openGroup role hlast)

theorem enclosable_intercalate {first : List Token} {rest : List (List Token)}
    (h : ∀ tokens ∈ first :: rest, Enclosable (ofTokens tokens)) :
    Enclosable (ofTokens ([Token.comma].intercalate (first :: rest))) := by
  induction rest generalizing first with
  | nil =>
      rw [List.intercalate_singleton]
      exact h first List.mem_cons_self
  | cons second rest ih =>
      rw [List.forall_mem_cons] at h
      have hcomma : Enclosable [comma] := enclosable_singleton (by simp) (by simp)
      rw [List.intercalate_cons_cons, List.append_assoc, ofTokens_append_of_head (by simp)]
      exact h.1.append (hcomma.append (ih h.2))

theorem enclosable_between {symbol : Char} {left right : List Token}
    (hleft : Enclosable (ofTokens left)) (hright : Enclosable (ofTokens right)) :
    Enclosable (ofTokens (left ++ .operator symbol :: right)) := by
  have hsymbol : Enclosable [operator symbol] := enclosable_singleton (by simp) (by simp)
  rw [ofTokens_append_of_head (by simp), ofTokens_cons, attach]
  exact hleft.append (hsymbol.append hright)

theorem enclosable_call {function : String} {arguments : List (List Token)}
    (hnone : Constant.named? function = none)
    (h : ∀ tokens ∈ arguments, Enclosable (ofTokens tokens)) :
    Enclosable (ofTokens (.name function :: .openParen ::
      ([Token.comma].intercalate arguments ++ [.closeParen]))) := by
  have hcall : Enclosable [openCall function] := enclosable_singleton (by simp) (by simp)
  rw [ofTokens_callee hnone]
  cases arguments with
  | nil => exact hcall.concat_close
  | cons first rest =>
      rw [ofTokens_append_of_head (by simp), ofTokens_cons, attach, ofTokens_nil]
      exact (hcall.append (enclosable_intercalate h)).concat_close

end Role

theorem Derives.enclosable {level : Level} {x : Expression} (h : Derives level tokens x) :
    Role.Enclosable (Role.ofTokens tokens) := by
  induction h with
  | tighter _ _ ih => exact ih
  | sum _ _ _ _ ihLeft ihRight => exact Role.enclosable_between ihLeft ihRight
  | product _ _ _ _ ihLeft ihRight => exact Role.enclosable_between ihLeft ihRight
  | power _ _ ihLeft ihRight => exact Role.enclosable_between ihLeft ihRight
  | negation _ ih =>
      have hsymbol : Role.Enclosable [.operator '-'] :=
        Role.enclosable_singleton (by simp) (by simp)
      rw [Role.ofTokens_cons, Role.attach]
      exact hsymbol.append ih
  | suffix _ ih =>
      have hsymbol : Role.Enclosable [.suffix '!'] :=
        Role.enclosable_singleton (by simp) (by simp)
      rw [Role.ofTokens_append_of_head (by simp), Role.ofTokens_cons, Role.attach]
      exact ih.append hsymbol
  | number value => exact Role.enclosable_singleton (by simp) (by simp)
  | constant hconstant =>
      simp only [Role.ofTokens, Role.attach, Role.attachName, List.foldr, hconstant]
      exact Role.enclosable_singleton (by simp) (by simp)
  | name hnone =>
      simp only [Role.ofTokens, Role.attach, Role.attachName, List.foldr, hnone]
      exact Role.enclosable_singleton (by simp) (by simp)
  | call hnone _ ih =>
      apply Role.enclosable_call hnone
      simpa using ih
  | group _ ih =>
      rw [Role.ofTokens_cons, Role.attach, Role.ofTokens_append_of_head (by simp)]
      rw [Role.ofTokens_cons, Role.attach, Role.ofTokens_nil]
      exact ih.openGroup_cons.concat_close

theorem IsSentence.not_hasEmptyGroup (h : IsSentence tokens) : ¬ HasEmptyGroup tokens := by
  rcases h with ⟨x, hderives⟩
  exact Role.not_hasEmptyGroup hderives.enclosable.noEmptyGroup

/-! ## Expressions with a value -/

/-- An expression with a value is a sentence exactly when it has no empty group. -/
theorem isSentence_iff_of_evaluate {environment : Environment} {source : String} {value : Float}
    (h : evaluate environment source = .ok value) :
    ∃ tokens, tokenize source = .ok tokens ∧ (IsSentence tokens ↔ ¬ HasEmptyGroup tokens) := by
  rcases evaluate_eq_ok.mp h with ⟨tokens, program, htokens, hprogram, hvalue⟩
  refine ⟨tokens, htokens, IsSentence.not_hasEmptyGroup, ?_⟩
  intro hempty
  have hblank := blank_not_mem_of_tokenize htokens
  have hdepth := Program.depth?_of_evaluate hvalue
  have hne : tokens ≠ [] := by
    intro hnil
    rw [hnil] at hprogram
    cases hprogram
    cases hdepth
  rw [depth?_of_arrange hblank hne hempty hprogram] at hdepth
  have hcount := Option.some.inj hdepth
  exact isSentence_of_arrange hblank hne hempty (by omega) hprogram

theorem isSentence_iff_of_factorial_of_call :
    evaluate {} "max(2,3)!" = .ok 6 ∧ ∃ tokens, tokenize "max(2,3)!" = .ok tokens ∧
      (IsSentence tokens ↔ ¬ HasEmptyGroup tokens) := by
  have hvalue : evaluate {} "max(2,3)!" = .ok 6 :=
    Sequencing.eq_ok_of_toOption (by decide +kernel)
  exact ⟨hvalue, isSentence_iff_of_evaluate hvalue⟩

/-- The empty group takes the place of an operand, and the sum takes both numbers. -/
theorem value_of_empty_group :
    evaluate {} "2 3+()" = .ok 5 ∧
      ∃ tokens, tokenize "2 3+()" = .ok tokens ∧ ¬ IsSentence tokens := by
  have hvalue : evaluate {} "2 3+()" = .ok 5 :=
    Sequencing.eq_ok_of_toOption (by decide +kernel)
  have htokens : tokenize "2 3+()" =
      .ok [.number 2, .number 3, .operator '+', .openParen, .closeParen] :=
    Sequencing.eq_ok_of_toOption (by decide +kernel)
  refine ⟨hvalue, _, htokens, ?_⟩
  intro hsentence
  apply hsentence.not_hasEmptyGroup
  refine ⟨[.number 2, .number 3, .operator '+'], [], rfl, ?_⟩
  intro hopens
  rcases hopens with ⟨_, hlast, _⟩
  cases hlast

end Calculator
