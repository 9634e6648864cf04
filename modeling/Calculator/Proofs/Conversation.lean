import Calculator.Dialogue
import Calculator.Proofs.SessionLog

/-!
# Conversations

A dialogue is a sequence of turns: a line, what it makes the session do, what is printed
for it, and the session after it.  `Exchange` lists the kinds of lines by what is typed,
and says what each of them does and prints; it knows nothing of commands as they are read.
A line that ends the dialogue is no turn, and neither is any line behind it.

The main statement is that a transcript is made of the turns before the line that ends the
dialogue, each followed by one prompt for the session after it, and that a list of the
history shows the latest expressions that had a value.
-/

namespace Calculator

def AngleUnit.names : AngleUnit → List String
  | radians => ["rad", "radians"]
  | degrees => ["deg", "degrees"]

namespace Dialogue

open Session (Action Step)

/-! ## Lines as they are typed -/

/-- The word behind the colon of a line that starts with one, apart from white space. -/
def commandWord? (line : String) : Option String :=
  match WhiteSpace.trim line.toList with
  | ':' :: rest => some (String.ofList (WhiteSpace.trim rest))
  | _ => none

def expressionText? (line : String) : Option String :=
  match WhiteSpace.trim line.toList with
  | [] | ':' :: _ => none
  | cs => some (String.ofList cs)

def endsDialogue (line : String) : Bool :=
  commandWord? line = some "quit" || commandWord? line = some "q"

def folded (word : String) : String :=
  String.ofList (word.toList.map Char.toLower)

def commandWords : List String :=
  ["mc", "mr", "m+", "m-", "ms", "history", "clear", "functions", "quit", "q"]

/-! ## Turns -/

/-- The lines by their kinds, with what they make a session do and what is printed for them. -/
inductive Exchange (s : Session) (input : Input) : Option Action → String → Prop where
  | blank : WhiteSpace.trim input.text.toList = [] → Exchange s input none ""
  | value {text : String} {value : Float} : expressionText? input.text = some text →
      s.evaluate input.draws text = (.ok value, s.record text value) →
      Exchange s input (some (.evaluate text)) s!"= {NumberText.resultText value}\n"
  | failure {text : String} {failure : Failure} : expressionText? input.text = some text →
      s.evaluate input.draws text = (.error failure, s) →
      Exchange s input (some (.evaluate text)) s!"{failure.kind}: {failure.message}\n"
  | setUnit {word : String} {unit : AngleUnit} : commandWord? input.text = some word →
      folded word ∈ unit.names → Exchange s input (some (.setUnit unit)) ""
  | addToMemory : commandWord? input.text = some "m+" →
      Exchange s input (some (.addToMemory s.answer)) ""
  | subtractFromMemory : commandWord? input.text = some "m-" →
      Exchange s input (some (.subtractFromMemory s.answer)) ""
  | storeMemory : commandWord? input.text = some "ms" →
      Exchange s input (some (.storeMemory s.answer)) ""
  | clearMemory : commandWord? input.text = some "mc" → Exchange s input (some .clearMemory) ""
  | clearHistory : commandWord? input.text = some "clear" → Exchange s input (some .clearHistory) ""
  | recallMemory : commandWord? input.text = some "mr" →
      Exchange s input none s!"M = {NumberText.resultText s.memory}\n"
  | showHistory : commandWord? input.text = some "history" →
      Exchange s input none (String.join (s.history.reverse.map entryLine))
  | listFunctions : commandWord? input.text = some "functions" →
      Exchange s input none (" ".intercalate (Builtin.all.map Builtin.name) ++ "\n")
  | unknown {word : String} : commandWord? input.text = some word → word ∉ commandWords →
      (∀ unit : AngleUnit, folded word ∉ unit.names) →
      Exchange s input none (unknownCommand word)

structure Turn where
  input : Input
  /-- What the line makes the session do. -/
  action? : Option Action
  output : String
  /-- The session after the line. -/
  session : Session

namespace Turn

def text (turn : Turn) : String :=
  turn.output ++ prompt turn.session

def step? (turn : Turn) : Option Step :=
  turn.action?.map fun action => ⟨action, turn.input.draws⟩

end Turn

def steps (turns : List Turn) : List Step :=
  turns.filterMap Turn.step?

/-- Turns that follow on each other, from a session before them. -/
inductive Conversation : Session → List Turn → Prop where
  | nil (s : Session) : Conversation s []
  | cons {s : Session} {turn : Turn} {turns : List Turn} :
      Exchange s turn.input turn.action? turn.output →
      turn.session = s.afterAll turn.step?.toList →
      Conversation turn.session turns → Conversation s (turn :: turns)

theorem steps_cons (turn : Turn) (turns : List Turn) :
    steps (turn :: turns) = turn.step?.toList ++ steps turns := by
  unfold steps
  rw [List.filterMap_cons]
  cases turn.step? <;> rfl

theorem Conversation.exchange {s : Session} {earlier later : List Turn} {turn : Turn}
    (h : Conversation s (earlier ++ turn :: later)) :
    Exchange (s.afterAll (steps earlier)) turn.input turn.action? turn.output := by
  induction earlier generalizing s with
  | nil =>
      cases h with
      | cons hexchange _ _ => exact hexchange
  | cons first earlier ih =>
      cases h with
      | cons _ hsession hrest =>
          have hturn := ih hrest
          rw [hsession, ← Session.afterAll_append, ← steps_cons] at hturn
          exact hturn

/-! ## Replies are exchanges -/

/-- Whether a reply lets the dialogue go on, and does and prints what the line is for. -/
def Reply.Continues (r : Reply) (s : Session) (input : Input) : Prop :=
  ∃ action?, Exchange s input action? r.output ∧
    r.session = s.afterAll (Turn.step? ⟨input, action?, r.output, r.session⟩).toList ∧
    r.ended = false

theorem read_of_commandWord? {line word : String} (h : commandWord? line = some word) :
    Line.read line = .command (.read word) := by
  rw [commandWord?] at h
  split at h
  · rename_i htrim
    cases h
    rw [Line.read, htrim]
    rfl
  · cases h

theorem read_of_expressionText? {line text : String} (h : expressionText? line = some text) :
    Line.read line = .expression text := by
  rw [expressionText?] at h
  split at h
  · cases h
  · cases h
  · rename_i hblank hcolon
    cases h
    rw [Line.read]
    split
    · exact absurd ‹_› hblank
    · exact absurd ‹_› (hcolon _)
    · rfl

theorem expressionText?_of_commandWord? {line word : String}
    (h : commandWord? line = some word) : expressionText? line = none := by
  rw [commandWord?] at h
  split at h
  · rename_i htrim
    rw [expressionText?, htrim]
    rfl
  · cases h

theorem trim_eq_nil_or_command_or_expression (line : String) :
    WhiteSpace.trim line.toList = [] ∨ (∃ word, commandWord? line = some word) ∨
      ∃ text, expressionText? line = some text := by
  unfold commandWord? expressionText?
  cases WhiteSpace.trim line.toList with
  | nil => exact Or.inl rfl
  | cons c rest =>
      by_cases hcolon : c = ':'
      · subst hcolon
        exact Or.inr (Or.inl ⟨_, rfl⟩)
      · simp [hcolon]

theorem mem_names_of_read {word : String} {unit : AngleUnit}
    (h : AngleUnit.read word = .ok unit) : folded word ∈ unit.names := by
  rw [AngleUnit.read, ← folded] at h
  split at h <;> cases h <;> simp [AngleUnit.names, *]

theorem not_mem_names_of_read {word message : String} (h : AngleUnit.read word = .error message)
    (unit : AngleUnit) : folded word ∉ unit.names := by
  rw [AngleUnit.read, ← folded] at h
  split at h
  · cases h
  · cases h
  · cases h
  · cases h
  · rename_i hrad hradians hdeg hdegrees
    cases unit with
    | radians =>
        simp only [AngleUnit.names, List.mem_cons, List.not_mem_nil, or_false, not_or]
        exact ⟨hrad, hradians⟩
    | degrees =>
        simp only [AngleUnit.names, List.mem_cons, List.not_mem_nil, or_false, not_or]
        exact ⟨hdeg, hdegrees⟩

section

variable (s : Session) {input : Input}

theorem continues_of_command {word : String} (hword : commandWord? input.text = some word)
    (hends : word ≠ "quit" ∧ word ≠ "q") :
    (replyToCommand s (.read word)).Continues s input := by
  unfold Command.read
  cases hread : AngleUnit.read word with
  | ok unit => exact ⟨_, .setUnit hword (mem_names_of_read hread), rfl, rfl⟩
  | error message =>
      dsimp only
      split
      · exact ⟨_, .clearMemory hword, rfl, rfl⟩
      · exact ⟨_, .recallMemory hword, rfl, rfl⟩
      · exact ⟨_, .addToMemory hword, rfl, rfl⟩
      · exact ⟨_, .subtractFromMemory hword, rfl, rfl⟩
      · exact ⟨_, .storeMemory hword, rfl, rfl⟩
      · exact ⟨_, .showHistory hword, rfl, rfl⟩
      · exact ⟨_, .clearHistory hword, rfl, rfl⟩
      · exact ⟨_, .listFunctions hword, rfl, rfl⟩
      · exact absurd rfl hends.1
      · exact absurd rfl hends.2
      · have hother : word ∉ commandWords := by
          simp only [commandWords, List.mem_cons, List.not_mem_nil, or_false, not_or]
          refine ⟨?_, ?_, ?_, ?_, ?_, ?_, ?_, ?_, ?_, ?_⟩ <;> assumption
        exact ⟨_, .unknown hword hother (not_mem_names_of_read hread), rfl, rfl⟩

theorem continues_of_expression {text : String} (htext : expressionText? input.text = some text) :
    (replyToExpression s input.draws text).Continues s input := by
  have hafter : (s.evaluate input.draws text).2 = s.afterAll [⟨.evaluate text, input.draws⟩] := rfl
  cases hpreview : s.preview input.draws text with
  | ok value =>
      have hevaluate := Session.evaluate_ok hpreview
      rw [hevaluate] at hafter
      rw [replyToExpression, hevaluate]
      exact ⟨_, .value htext hevaluate, hafter, rfl⟩
  | error failure =>
      have hevaluate := Session.evaluate_error hpreview
      rw [hevaluate] at hafter
      rw [replyToExpression, hevaluate]
      exact ⟨_, .failure htext hevaluate, hafter, rfl⟩

theorem reply_of_endsDialogue (h : endsDialogue input.text = true) :
    reply s input = ⟨"", s, true⟩ := by
  rw [endsDialogue, Bool.or_eq_true, decide_eq_true_eq, decide_eq_true_eq] at h
  rcases h with hquit | hq
  · rw [reply, read_of_commandWord? hquit]
    rfl
  · rw [reply, read_of_commandWord? hq]
    rfl

theorem continues_reply (h : endsDialogue input.text = false) :
    (reply s input).Continues s input := by
  rcases trim_eq_nil_or_command_or_expression input.text with hblank | ⟨word, hword⟩ |
    ⟨text, htext⟩
  · have hread : Line.read input.text = .blank := by
      rw [Line.read, hblank]
    rw [reply, hread]
    exact ⟨none, .blank hblank, rfl, rfl⟩
  · rw [reply, read_of_commandWord? hword]
    apply continues_of_command s hword
    constructor
    · rintro rfl
      simp [endsDialogue, hword] at h
    · rintro rfl
      simp [endsDialogue, hword] at h
  · rw [reply, read_of_expressionText? htext]
    exact continues_of_expression s htext

end

/-! ## Dialogues are made of turns -/

theorem exists_turns (printed : String) (s : Session) (inputs : List Input) :
    ∃ turns : List Turn, turns.map Turn.input = inputs.takeWhile (!endsDialogue ·.text) ∧
      Conversation s turns ∧
      converseAfter printed s inputs =
        (printed ++ String.join (turns.map Turn.text), s.afterAll (steps turns)) := by
  induction inputs generalizing printed s with
  | nil => exact ⟨[], rfl, .nil s, by rw [converseAfter]; simp [steps, Session.afterAll]⟩
  | cons input rest ih =>
      rw [converseAfter, List.takeWhile_cons]
      cases hends : endsDialogue input.text with
      | true =>
          rw [reply_of_endsDialogue s hends]
          exact ⟨[], rfl, .nil s, rfl⟩
      | false =>
          rcases continues_reply s hends with ⟨action?, hexchange, hsession, hended⟩
          let turn : Turn := ⟨input, action?, (reply s input).output, (reply s input).session⟩
          have htext : (reply s input).text = turn.text := by
            rw [Reply.text, hended]
            rfl
          rcases ih (printed ++ turn.text) turn.session with
            ⟨turns, hinputs, hconversation, hrest⟩
          refine ⟨turn :: turns, ?_, .cons hexchange hsession hconversation, ?_⟩
          · exact congrArg (input :: ·) hinputs
          · rw [hended, htext, if_neg Bool.false_ne_true, hrest, steps_cons,
              Session.afterAll_append, ← hsession, List.map_cons, String.join_cons,
              String.append_assoc]

theorem Exchange.output_of_history {s : Session} {input : Input} {output : String}
    {action? : Option Action} (h : Exchange s input action? output)
    (hword : commandWord? input.text = some "history") :
    output = String.join (s.history.reverse.map entryLine) := by
  cases h with
  | showHistory => rfl
  | blank hblank =>
      rw [commandWord?, hblank] at hword
      cases hword
  | value htext | failure htext =>
      rw [expressionText?_of_commandWord? hword] at htext
      cases htext
  | setUnit hword' hmem =>
      rename_i unit
      rw [hword] at hword'
      cases hword'
      cases unit <;> exact absurd hmem (by decide)
  | unknown hword' hmem =>
      rw [hword] at hword'
      cases hword'
      exact absurd (by decide) hmem
  | addToMemory hword' | subtractFromMemory hword' | storeMemory hword' | clearMemory hword'
  | clearHistory hword' | recallMemory hword' | listFunctions hword' =>
      rw [hword] at hword'
      exact absurd hword' (by decide)

/--
A transcript is made of turns, up to the line that ends the dialogue, and the session goes
through what they make it do.  A list of the history shows the latest results, oldest first.
-/
theorem transcript_eq_turns (s : Session) (inputs : List Input) :
    ∃ turns : List Turn, turns.map Turn.input = inputs.takeWhile (!endsDialogue ·.text) ∧
      Conversation s turns ∧
      transcript s inputs = prompt s ++ String.join (turns.map Turn.text) ∧
      (converse s inputs).2 = s.afterAll (steps turns) ∧
      ∀ earlier turn later, turns = earlier ++ turn :: later →
        commandWord? turn.input.text = some "history" →
        turn.output = String.join
          (((s.kept (s.log (steps earlier))).take 200).reverse.map entryLine) := by
  rcases exists_turns (prompt s) s inputs with ⟨turns, hinputs, hconversation, hconverse⟩
  refine ⟨turns, hinputs, hconversation, ?_, ?_, ?_⟩
  · rw [transcript, converse, hconverse]
  · rw [converse, hconverse]
  · intro earlier turn later hturns hword
    rw [hturns] at hconversation
    rw [hconversation.exchange.output_of_history hword, Session.history_afterAll, historyLimit]

theorem transcript_eq_turns_of_earlier_result :
    let s := Session.fresh.afterAll [{ action := .evaluate "0.5" }, { action := .setUnit .degrees }]
    let inputs : List Input :=
      [" 1+2", ":m+", ":RAD", "ans!", "2+", ": history ", ":q", "5"].map fun text => { text }
    transcript s inputs =
        "[DEG] > = 3\n[DEG] > [DEG] > [RAD] > = 6\n" ++
          "[RAD] > ParseError: Operator '+' is missing an operand.\n" ++
          "[RAD] > 0.5 = 0.5\n1+2 = 3\nans! = 6\n[RAD] > " ∧
      ∃ turns : List Turn, turns.map Turn.input = inputs.takeWhile (!endsDialogue ·.text) ∧
        Conversation s turns ∧
        transcript s inputs = prompt s ++ String.join (turns.map Turn.text) := by
  intro s inputs
  rcases transcript_eq_turns s inputs with ⟨turns, hinputs, hconversation, hprinted, _⟩
  refine ⟨?_, turns, hinputs, hconversation, hprinted⟩
  decide +kernel

end Dialogue
end Calculator
