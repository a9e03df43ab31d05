/-!
# Why a compilation fails

A compile error is a line number and a reason. The line is the one that reading had reached when the
error was found, which may be past the token at fault.
-/

namespace MiniC

/-- A region that a compilation fills. -/
inductive Region where
  | symbols
  | code
  | data
  deriving DecidableEq, Repr

def Region.name : Region → String
  | symbols => "symbol"
  | code => "text"
  | data => "data"

/-- A use of an expression as a place to store to. -/
inductive LvalueUse where
  | assignment
  | postIncrement
  | preIncrement
  deriving DecidableEq, Repr

def LvalueUse.name : LvalueUse → String
  | assignment => "assignment"
  | postIncrement => "post-increment"
  | preIncrement => "pre-increment"

inductive Reason where
  | unexpectedEof
  | unterminatedLiteral
  | openParenExpected
  | closeParenExpected
  | closeBracketExpected
  | semicolonExpected (found : String)
  | colonExpected
  | sizeofOpenParen
  | sizeofCloseParen
  | badCast
  | badDereference
  | badAddressOf
  | badLvalue (use : LvalueUse)
  | pointerExpected
  | badExpression (found : String)
  | badFunctionCall (name : String)
  | undefinedVariable (name : String)
  | badEnumIdentifier
  | badEnumInitializer
  | badGlobalDeclaration
  | duplicateGlobal (name : String)
  | badParameterDeclaration
  | duplicateParameter (name : String)
  | badFunctionDefinition
  | badLocalDeclaration
  | duplicateLocal (name : String)
  | mainNotDefined
  | nestingTooDeep (levels : Nat)
  | capacityExceeded (region : Region) (capacity : Nat)
  /-- The listing could not be written, for the given cause. -/
  | listing (cause : String)
  /-- More instructions have been listed than there are in the code. -/
  | listingAhead (listed size : Nat)
  deriving DecidableEq, Repr

namespace Reason

def message : Reason → String
  | unexpectedEof => "unexpected eof in expression"
  | unterminatedLiteral => "unterminated literal"
  | openParenExpected => "open paren expected"
  | closeParenExpected => "close paren expected"
  | closeBracketExpected => "close bracket expected"
  | semicolonExpected found => "semicolon expected (tk: '" ++ found ++ "')"
  | colonExpected => "conditional missing colon"
  | sizeofOpenParen => "open paren expected in sizeof"
  | sizeofCloseParen => "close paren expected in sizeof"
  | badCast => "bad cast"
  | badDereference => "bad dereference"
  | badAddressOf => "bad address-of"
  | badLvalue use => "bad lvalue in " ++ use.name
  | pointerExpected => "pointer type expected"
  | badExpression found => "bad expression (tk: '" ++ found ++ "')"
  | badFunctionCall name => "bad function call: " ++ name
  | undefinedVariable name => "undefined variable: " ++ name
  | badEnumIdentifier => "bad enum identifier"
  | badEnumInitializer => "bad enum initializer"
  | badGlobalDeclaration => "bad global declaration"
  | duplicateGlobal name => "duplicate global definition: " ++ name
  | badParameterDeclaration => "bad parameter declaration"
  | duplicateParameter name => "duplicate parameter definition: " ++ name
  | badFunctionDefinition => "bad function definition"
  | badLocalDeclaration => "bad local declaration"
  | duplicateLocal name => "duplicate local definition: " ++ name
  | mainNotDefined => "main() not defined"
  | nestingTooDeep levels => "nesting deeper than " ++ levels.repr ++ " levels"
  | capacityExceeded region capacity =>
    region.name ++ " area exceeded: capacity " ++ capacity.repr
  | listing cause => "listing output failed: " ++ cause
  | listingAhead listed size =>
    "range start index " ++ listed.repr ++ " out of range for slice of length " ++ size.repr

/-- Whether the compiler itself has gone wrong. It crashes then and reports nothing. -/
def isCrash : Reason → Bool
  | listingAhead _ _ => true
  | _ => false

end Reason

structure CompileError where
  line : Nat
  reason : Reason
  deriving DecidableEq, Repr

def CompileError.message (e : CompileError) : String := e.line.repr ++ ": " ++ e.reason.message

end MiniC
