/-!
The kinds of fault that a program can meet, arranged in a tree: every kind but the topmost refines
a broader one.
-/
namespace DynamicLisp.Fault

/-- A kind of fault, broad or narrow. -/
inductive Kind where
  | language
  | reading
  | naming
  | typing
  | counting
  | arithmetic
  | emptyProgram
  | missingCloseParen
  | unexpectedCloseParen
  | expectedOpenParenAfterQuote
  | illFormedExpression
  | undefinedSymbol
  | notCallable
  | invalidDefineTarget
  | nonSymbolInParameterList
  | nonBooleanCondition
  | notAnInteger
  | expectedPair
  | notAList
  | arityMismatch
  | illFormedDefine
  | tooManyIfBranches
  | invalidArgumentCount
  | divisionByZero
  | integerOverflow
  deriving DecidableEq, Repr

namespace Kind

/-- Every kind, the broad ones first. -/
def all : List Kind :=
  [.language, .reading, .naming, .typing, .counting, .arithmetic, .emptyProgram,
    .missingCloseParen, .unexpectedCloseParen, .expectedOpenParenAfterQuote, .illFormedExpression,
    .undefinedSymbol, .notCallable, .invalidDefineTarget, .nonSymbolInParameterList,
    .nonBooleanCondition, .notAnInteger, .expectedPair, .notAList, .arityMismatch,
    .illFormedDefine, .tooManyIfBranches, .invalidArgumentCount, .divisionByZero,
    .integerOverflow]

/-- The name under which a kind is reported. -/
def name : Kind → String
  | language => "SchemeError"
  | reading => "SchemeSyntaxError"
  | naming => "SchemeNameError"
  | typing => "SchemeTypeError"
  | counting => "SchemeArityError"
  | arithmetic => "SchemeArithmeticError"
  | emptyProgram => "EmptyProgram"
  | missingCloseParen => "MissingCloseParen"
  | unexpectedCloseParen => "UnexpectedCloseParen"
  | expectedOpenParenAfterQuote => "ExpectedOpenParenAfterQuote"
  | illFormedExpression => "IllFormedExpression"
  | undefinedSymbol => "UndefinedSymbol"
  | notCallable => "NotCallable"
  | invalidDefineTarget => "InvalidDefineTarget"
  | nonSymbolInParameterList => "NonSymbolInParameterList"
  | nonBooleanCondition => "NonBooleanCondition"
  | notAnInteger => "NotAnInteger"
  | expectedPair => "ExpectedPair"
  | notAList => "NotAList"
  | arityMismatch => "ArityMismatch"
  | illFormedDefine => "IllFormedDefine"
  | tooManyIfBranches => "TooManyIfBranches"
  | invalidArgumentCount => "InvalidArgumentCount"
  | divisionByZero => "DivisionByZero"
  | integerOverflow => "IntegerOverflow"

/-- The next broader kind. -/
def parent? : Kind → Option Kind
  | language => none
  | reading | naming | typing | counting | arithmetic => some language
  | emptyProgram | missingCloseParen | unexpectedCloseParen | expectedOpenParenAfterQuote
  | illFormedExpression => some reading
  | undefinedSymbol => some naming
  | notCallable | invalidDefineTarget | nonSymbolInParameterList | nonBooleanCondition
  | notAnInteger | expectedPair | notAList => some typing
  | arityMismatch | illFormedDefine | tooManyIfBranches | invalidArgumentCount => some counting
  | divisionByZero | integerOverflow => some arithmetic

/-- How many kinds are broader. -/
def depth : Kind → Nat
  | language => 0
  | reading | naming | typing | counting | arithmetic => 1
  | _ => 2

/-- A broader kind stands one step nearer to the top. -/
theorem depth_of_parent? {k p : Kind} (h : k.parent? = some p) : k.depth = p.depth + 1 := by
  cases k <;> simp [parent?] at h <;> subst h <;> rfl

/-- The kind itself and all broader ones, up to the topmost. -/
def lineage (k : Kind) : List Kind :=
  match _h : k.parent? with
  | none => [k]
  | some p => k :: lineage p
termination_by k.depth
decreasing_by rw [depth_of_parent? _h]; omega

theorem mem_lineage_self (k : Kind) : k ∈ k.lineage := by
  unfold lineage
  split <;> exact .head _

/-- A kind refines whatever the next broader one refines. -/
theorem mem_lineage_of_parent? {k p q : Kind} (h : k.parent? = some p) (hq : q ∈ p.lineage) :
    q ∈ k.lineage := by
  unfold lineage
  split
  · next hn =>
    rw [hn] at h
    cases h
  · next p' hp =>
    rw [hp] at h
    cases h
    exact .tail _ hq

/-- The kind of a given name. -/
def ofName? (s : String) : Option Kind :=
  all.find? (·.name = s)

end Kind

end DynamicLisp.Fault
