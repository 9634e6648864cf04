import Calculator.Proofs.StackDepth

/-!
# Expression trees

An expression is a tree: numbers and names are its leaves, operators have one or
two operands, and calls have any number of arguments.  Its program lists the
instructions of the nodes in postorder.

A program can be read back with a stack of trees in the place of the stack of
values: each instruction takes the trees of its operands and leaves the tree of
its node.  Reading inverts writing, so a tree is determined by its program, and it
needs exactly the values that the account of the stack asks for.
-/

namespace Calculator

inductive Expression where
  /-- A number, or a constant, which stands for its number. -/
  | number (value : Float)
  | name (text : String)
  | unary (op : Operator) (one : op.operandCount = 1) (operand : Expression)
  | binary (op : Operator) (two : op.operandCount = 2) (left right : Expression)
  | call (function : String) (arguments : List Expression)

namespace Expression

/-! ## Induction over the arguments of a call -/

@[elab_as_elim, induction_eliminator]
theorem inductionOnNodes {motive : Expression → Prop}
    (number : ∀ value, motive (.number value))
    (name : ∀ text, motive (.name text))
    (unary : ∀ op one operand, motive operand → motive (.unary op one operand))
    (binary : ∀ op two left right, motive left → motive right →
      motive (.binary op two left right))
    (call : ∀ function arguments, (∀ argument ∈ arguments, motive argument) →
      motive (.call function arguments))
    (expression : Expression) : motive expression := by
  refine Expression.rec (motive_1 := motive)
    (motive_2 := fun arguments => ∀ argument ∈ arguments, motive argument)
    number name unary binary call ?_ ?_ expression
  · intro argument hmem
    cases hmem
  · intro first rest hfirst hrest argument hmem
    cases hmem with
    | head => exact hfirst
    | tail _ hmem => exact hrest argument hmem

/-! ## Programs -/

mutual

/-- The instructions of the operands from left to right, and then that of the node. -/
def program : Expression → Program
  | number value => [.number value]
  | name text => [.name text]
  | unary op _ operand => operand.program ++ [.operator op]
  | binary op _ left right => left.program ++ right.program ++ [.operator op]
  | call function arguments => programs arguments ++ [.call function arguments.length]

def programs : List Expression → Program
  | [] => []
  | first :: rest => first.program ++ programs rest

end

theorem programs_eq_flatMap (expressions : List Expression) :
    programs expressions = expressions.flatMap program := by
  induction expressions with
  | nil => rfl
  | cons first rest ih =>
      rw [programs, ih, List.flatMap_cons]

theorem program_call (function : String) (arguments : List Expression) :
    (call function arguments).program =
      arguments.flatMap program ++ [.call function arguments.length] := by
  rw [program, programs_eq_flatMap]

/-! ## Reading a program back -/

def joinOperator? (op : Operator) (stack : List Expression) : Option (List Expression) :=
  if one : op.operandCount = 1 then
    match stack with
    | operand :: stack => some (unary op one operand :: stack)
    | _ => none
  else if two : op.operandCount = 2 then
    match stack with
    | right :: left :: stack => some (binary op two left right :: stack)
    | _ => none
  else none

/-- The trees on a stack, latest first, after an instruction. -/
def push? (stack : List Expression) : Instruction → Option (List Expression)
  | .number value => some (number value :: stack)
  | .name text => some (name text :: stack)
  | .operator op => joinOperator? op stack
  | .call function count =>
      if count ≤ stack.length then
        some (call function (stack.take count).reverse :: stack.drop count)
      else none

def read? (stack : List Expression) (program : Program) : Option (List Expression) :=
  program.foldlM push? stack

theorem read?_cons (stack : List Expression) (instruction : Instruction) (program : Program) :
    read? stack (instruction :: program) =
      (push? stack instruction).bind fun next => read? next program :=
  List.foldlM_cons

theorem read?_append (stack : List Expression) (first second : Program) :
    read? stack (first ++ second) =
      (read? stack first).bind fun next => read? next second :=
  List.foldlM_append

theorem read?_singleton (stack : List Expression) (instruction : Instruction) :
    read? stack [instruction] = push? stack instruction := by
  rw [read?_cons]
  cases push? stack instruction <;> rfl

theorem joinOperator?_unary {op : Operator} (one : op.operandCount = 1)
    (operand : Expression) (stack : List Expression) :
    joinOperator? op (operand :: stack) = some (unary op one operand :: stack) := by
  rw [joinOperator?, dif_pos one]

theorem joinOperator?_binary {op : Operator} (two : op.operandCount = 2)
    (left right : Expression) (stack : List Expression) :
    joinOperator? op (right :: left :: stack) = some (binary op two left right :: stack) := by
  have hone : ¬ op.operandCount = 1 := by
    rw [two]
    decide
  rw [joinOperator?, dif_neg hone, dif_pos two]

theorem read?_flatMap_program {expressions : List Expression} {stack : List Expression}
    (h : ∀ expression ∈ expressions, ∀ stack,
      read? stack expression.program = some (expression :: stack)) :
    read? stack (expressions.flatMap program) = some (expressions.reverse ++ stack) := by
  induction expressions generalizing stack with
  | nil => rfl
  | cons first rest ih =>
      rw [List.flatMap_cons, read?_append, h first List.mem_cons_self]
      rw [Option.bind_some, ih fun expression hmem => h expression (List.mem_cons_of_mem _ hmem)]
      simp

theorem read?_program (expression : Expression) (stack : List Expression) :
    read? stack expression.program = some (expression :: stack) := by
  induction expression generalizing stack with
  | number value => rfl
  | name text => rfl
  | unary op one operand ih =>
      rw [program, read?_append, ih, Option.bind_some, read?_singleton]
      exact joinOperator?_unary one operand stack
  | binary op two left right ihLeft ihRight =>
      rw [program, read?_append, read?_append, ihLeft, Option.bind_some, ihRight]
      rw [Option.bind_some, read?_singleton]
      exact joinOperator?_binary two left right stack
  | call function arguments ih =>
      rw [program_call, read?_append, read?_flatMap_program ih, Option.bind_some, read?_singleton]
      simp [push?]

theorem program_injective : Function.Injective program := by
  intro first second h
  have hfirst := read?_program first []
  rw [h, read?_program second []] at hfirst
  cases hfirst
  rfl

/-! ## Only programs of trees are read -/

theorem flatMap_program_of_push? {stack next : List Expression} {instruction : Instruction}
    (h : push? stack instruction = some next) :
    next.reverse.flatMap program = stack.reverse.flatMap program ++ [instruction] := by
  cases instruction with
  | number value =>
      cases h
      simp [program]
  | name text =>
      cases h
      simp [program]
  | operator op =>
      rw [push?, joinOperator?] at h
      split at h
      · split at h
        · cases h
          simp [program]
        · cases h
      · split at h
        · split at h
          · cases h
            simp [program]
          · cases h
        · cases h
  | call function count =>
      rw [push?] at h
      split at h
      · rename_i hcount
        cases h
        have hstack := congrArg (List.flatMap program ∘ List.reverse)
          (List.take_append_drop count stack)
        simp only [Function.comp_apply, List.reverse_append, List.flatMap_append] at hstack
        rw [← hstack, List.reverse_cons, List.flatMap_append, List.flatMap_singleton, program_call]
        simp [Nat.min_eq_left hcount]
      · cases h

theorem flatMap_program_of_read? {stack last : List Expression} {program : Program}
    (h : read? stack program = some last) :
    last.reverse.flatMap Expression.program =
      stack.reverse.flatMap Expression.program ++ program := by
  induction program generalizing stack with
  | nil =>
      cases h
      simp
  | cons instruction program ih =>
      rw [read?_cons, Option.bind_eq_some_iff] at h
      rcases h with ⟨next, hpush, hread⟩
      rw [ih hread, flatMap_program_of_push? hpush]
      simp

theorem program_of_read? {expression : Expression} {program : Program}
    (h : read? [] program = some [expression]) : expression.program = program := by
  simpa using flatMap_program_of_read? h

/-! ## Reading needs the operands and nothing else -/

theorem length_push? (stack : List Expression) (instruction : Instruction) :
    (push? stack instruction).map List.length = instruction.depth? stack.length := by
  cases instruction with
  | number value => simp [push?, Instruction.depth?, Instruction.operandCount]
  | name text => simp [push?, Instruction.depth?, Instruction.operandCount]
  | operator op =>
      rw [push?, Instruction.depth?, Instruction.operandCount]
      rcases op.operandCount_eq_one_or_two with hone | htwo
      · rw [joinOperator?, dif_pos hone, hone]
        cases stack with
        | nil => rfl
        | cons operand stack => simp
      · rw [joinOperator?, dif_neg (by rw [htwo]; decide), dif_pos htwo, htwo]
        rcases stack with _ | ⟨right, _ | ⟨left, stack⟩⟩
        · rfl
        · rfl
        · simp
  | call function count =>
      rw [push?, Instruction.depth?, Instruction.operandCount]
      split
      · simp
      · rfl

theorem length_read? (stack : List Expression) (program : Program) :
    (read? stack program).map List.length = program.depth? stack.length := by
  induction program generalizing stack with
  | nil => rfl
  | cons instruction program ih =>
      rw [read?_cons, Program.depth?_cons, ← length_push?]
      cases push? stack instruction with
      | none => rfl
      | some next => exact ih next

/-- A program that leaves one value is the program of a tree. -/
theorem exists_program_of_depth? {program : Program} (h : program.depth? 0 = some 1) :
    ∃ expression : Expression, expression.program = program := by
  have hlength := length_read? [] program
  rw [show ([] : List Expression).length = 0 from rfl, h, Option.map_eq_some_iff] at hlength
  rcases hlength with ⟨last, hread, hone⟩
  rcases List.length_eq_one_iff.mp hone with ⟨expression, rfl⟩
  exact ⟨expression, program_of_read? hread⟩

end Expression
end Calculator
