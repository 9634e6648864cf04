import Calculator.Main
import Calculator.Proofs.StackDepth
import Calculator.Proofs.Expression
import Calculator.Proofs.ExpressionValue
import Calculator.Proofs.Grammar
import Calculator.Proofs.Precedence
import Calculator.Proofs.Completeness
import Calculator.Proofs.LexicalGrammar
import Calculator.Proofs.Segmentation
import Calculator.Proofs.BracketScan
import Calculator.Proofs.SessionLog
import Calculator.Proofs.Mentions
import Calculator.Proofs.Surroundings
import Calculator.Proofs.Contexts
import Calculator.Proofs.AnswerSubstitution
import Calculator.Proofs.ChainedEvaluation
import Calculator.Proofs.StructuralFault
import Calculator.Proofs.Independence
import Calculator.Proofs.Noninterference
import Calculator.Proofs.Conversation
import Calculator.Proofs.BlankSeparation
import Calculator.Proofs.LetterCase
import Calculator.Proofs.Parentheses
import Calculator.Proofs.Accounting
import Calculator.Proofs.ExactValue
import Calculator.Proofs.NearestMultiple
import Calculator.Proofs.DigitRuns
import Calculator.Proofs.Denotation
import Calculator.Proofs.DecimalGrid
import Calculator.Proofs.ResultText
import Calculator.Proofs.ResultOrder
import Calculator.Proofs.NearestDouble
import Calculator.Proofs.ResultReading
import Calculator.Proofs.TypedPosition
import Calculator.Proofs.IdleBlanks
import Calculator.Proofs.OperandCounts
import Calculator.Proofs.RunRecords
import Calculator.Proofs.Extrema
import Calculator.Proofs.FactorialDomain
import Calculator.Proofs.ExactText
import Calculator.Proofs.ProgramText
import Calculator.Proofs.OpenBrackets
import Calculator.Proofs.PendingStack
