import Lox.Report

/-!
# What can be wrong with a token list

A grammar error is a fault and the token where it shows, which at the end of a program is the token
that closes it.
-/

namespace Lox

/-- Whether a function stands alone or belongs to a class. -/
inductive FunctionRole where
  | function
  | method
deriving DecidableEq, Repr

/-- The word for a role in messages. -/
def FunctionRole.word : FunctionRole → String
  | function => "function"
  | method => "method"

/-- At most this many parameters, and this many arguments. -/
def maxArity : Nat := 255

/-- Why tokens are no program. -/
inductive GrammarFault where
  | expression
  | className
  | superclassName
  | classOpen
  | classClose
  | functionName (role : FunctionRole)
  | paramsOpen (role : FunctionRole)
  | paramName
  | paramsClose
  | bodyOpen (role : FunctionRole)
  | tooManyParams
  | varName
  | varEnd
  | forOpen
  | forConditionEnd
  | forClose
  | ifOpen
  | ifClose
  | whileOpen
  | whileClose
  | printEnd
  | returnEnd
  | expressionEnd
  | blockClose
  | invalidTarget
  | propertyName
  | tooManyArguments
  | argumentsClose
  | malformedLiteral
  | superDot
  | superMethod
  | groupingClose
deriving DecidableEq, Repr

/-- The wording of a fault. -/
def GrammarFault.message : GrammarFault → String
  | expression => "Expect expression."
  | className => "Expect class name."
  | superclassName => "Expect superclass name."
  | classOpen => "Expect '\x7b' before class body."
  | classClose => "Expect '\x7d' after class body."
  | functionName role => "Expect " ++ role.word ++ " name."
  | paramsOpen role => "Expect '(' after " ++ role.word ++ " name."
  | paramName => "Expect parameter name."
  | paramsClose => "Expect ')' after parameters."
  | bodyOpen role => "Expect '\x7b' before " ++ role.word ++ " body."
  | tooManyParams => s!"Can't have more than {maxArity} parameters."
  | varName => "Expect variable name."
  | varEnd => "Expect ';' after variable declaration."
  | forOpen => "Expect '(' after 'for'."
  | forConditionEnd => "Expect ';' after loop condition."
  | forClose => "Expect ')' after for clauses."
  | ifOpen => "Expect '(' after 'if'."
  | ifClose => "Expect ')' after if condition."
  | whileOpen => "Expect '(' after 'while'."
  | whileClose => "Expect ')' after condition."
  | printEnd => "Expect ';' after value."
  | returnEnd => "Expect ';' after return value."
  | expressionEnd => "Expect ';' after expression."
  | blockClose => "Expect '\x7d' after block."
  | invalidTarget => "Invalid assignment target."
  | propertyName => "Expect property name after '.'."
  | tooManyArguments => s!"Can't have more than {maxArity} arguments."
  | argumentsClose => "Expect ')' after arguments."
  | malformedLiteral => "Malformed literal."
  | superDot => "Expect '.' after 'super'."
  | superMethod => "Expect superclass method name."
  | groupingClose => "Expect ')' after expression."

/-- A fault and the token where it shows. -/
structure GrammarError where
  site : Token
  fault : GrammarFault
deriving DecidableEq

/-- The error as shown. -/
def GrammarError.report (e : GrammarError) : Report := .grammarAt e.site e.fault.message

end Lox
