import FrontEnd.Position
import FrontEnd.Text.Quoted

namespace FrontEnd

inductive ParseError where
  | unrecognisedToken (token : String)
  | unexpectedToken (expected got : String)
  | unknownPrefix (token : String)
  | numberParseError (token : String)
  | invalidArraySize (token : String)
  | invalidAssignment
  | missingGenericArgument (name : String)
  | unknownBuiltin (name : String)
  | missingTypeArguments (name : String) (expected : Nat)
  | tooManyErrors (count : Nat)
  deriving DecidableEq, Repr

inductive CheckError where
  | typeMismatch (expected got : String)
  | undefinedVariable (name : String)
  | unknownType (name : String)
  | recursiveType (name : String)
  | unknownStructField (field ty : String)
  | duplicateField (field : String)
  | expectedStruct (got : String)
  | expectedNumeric (got : String)
  | expectedPointer (got : String)
  | notIndexable (got : String)
  | notCallable (callee ty : String)
  | argumentCount (expected received : Nat)
  | invalidCast (source target : String)
  | arrayLiteralTooLong (length received : Nat)
  | notAllPathsReturn (function : String)
  | returnOutsideFunction
  | outsideLoop (keyword : String)
  | assignmentInExpression
  | assignmentCount (expected received : Nat)
  | unexpectedComma
  | capturedVariable (name : String)
  | unknownBuiltin (name : String)
  | builtinArguments (name expected : String)
  | moduleAsValue (module : String)
  | unknownModuleMember (module member : String)
  | importUnavailable (path reason : String)
  | importCycle (chain : String)
  | importFailed (path : String) (count : Nat)
  deriving DecidableEq, Repr

inductive Cause where
  | parse (e : ParseError)
  | check (e : CheckError)
  deriving DecidableEq, Repr

structure Diagnostic where
  cause : Cause
  position : Position
  deriving DecidableEq, Repr

namespace ParseError

def name : ParseError → String
  | .unrecognisedToken _ => "UnrecognisedToken"
  | .unexpectedToken _ _ => "UnexpectedToken"
  | .unknownPrefix _ => "UnknownPrefix"
  | .numberParseError _ => "NumberParseError"
  | .invalidArraySize _ => "InvalidArraySize"
  | .invalidAssignment => "InvalidAssignment"
  | .missingGenericArgument _ => "MissingGenericArgument"
  | .unknownBuiltin _ => "UnknownBuiltin"
  | .missingTypeArguments _ _ => "MissingTypeArguments"
  | .tooManyErrors _ => "TooManyErrors"

def message : ParseError → String
  | .unrecognisedToken token => "unrecognised token: " ++ Text.quoted token
  | .unexpectedToken expected got => "unexpected token, expected=" ++ expected ++ ", got=" ++ got
  | .unknownPrefix token => "unknown token to parse: " ++ Text.quoted token
  | .numberParseError token => "error parsing number: " ++ Text.quoted token
  | .invalidArraySize token => "invalid array size " ++ Text.quoted token
  | .invalidAssignment => "this operation is not permitted in an assignment"
  | .missingGenericArgument name => "no type argument was supplied for generic type " ++ name
  | .unknownBuiltin name => "unknown builtin function @" ++ name
  | .missingTypeArguments name expected =>
    "@" ++ name ++ " expects " ++ toString expected ++ " type argument(s)"
  | .tooManyErrors count => "too many errors, giving up after " ++ toString count

def tip? : ParseError → Option String
  | .unexpectedToken expected _ =>
    if expected = "Semicolon" then some "did you miss a semicolon?" else none
  | .numberParseError token =>
    some ("Invalid number: `" ++ token ++ "`, is it above the integer limit?")
  | .invalidAssignment =>
    some "only variables, fields, indexes and dereferences can be assigned to"
  | .missingGenericArgument name =>
    some ("pass a type for `" ++ name ++ "` in the import statement")
  | _ => none

end ParseError

namespace CheckError

def name : CheckError → String
  | .typeMismatch _ _ => "TypeMismatch"
  | .undefinedVariable _ => "UndefinedVariable"
  | .unknownType _ => "UnknownType"
  | .recursiveType _ => "RecursiveType"
  | .unknownStructField _ _ => "UnknownStructField"
  | .duplicateField _ => "DuplicateField"
  | .expectedStruct _ => "ExpectedStruct"
  | .expectedNumeric _ => "ExpectedNumeric"
  | .expectedPointer _ => "ExpectedPointer"
  | .notIndexable _ => "NotIndexable"
  | .notCallable _ _ => "NotCallable"
  | .argumentCount _ _ => "ArgumentCount"
  | .invalidCast _ _ => "InvalidCast"
  | .arrayLiteralTooLong _ _ => "ArrayLiteralTooLong"
  | .notAllPathsReturn _ => "NotAllPathsReturn"
  | .returnOutsideFunction => "ReturnOutsideFunction"
  | .outsideLoop _ => "OutsideLoop"
  | .assignmentInExpression => "AssignmentInExpression"
  | .assignmentCount _ _ => "AssignmentCount"
  | .unexpectedComma => "UnexpectedComma"
  | .capturedVariable _ => "CapturedVariable"
  | .unknownBuiltin _ => "UnknownBuiltin"
  | .builtinArguments _ _ => "BuiltinArguments"
  | .moduleAsValue _ => "ModuleAsValue"
  | .unknownModuleMember _ _ => "UnknownModuleMember"
  | .importUnavailable _ _ => "ImportUnavailable"
  | .importCycle _ => "ImportCycle"
  | .importFailed _ _ => "ImportFailed"

def message : CheckError → String
  | .typeMismatch expected got => "mismatched types, expected=" ++ expected ++ ", got=" ++ got
  | .undefinedVariable name => "undefined variable " ++ name
  | .unknownType name => "unknown type " ++ name
  | .recursiveType name => "recursive type detected in " ++ name
  | .unknownStructField field ty => "unknown struct field " ++ field ++ " in " ++ ty
  | .duplicateField field => "field " ++ field ++ " is initialised more than once"
  | .expectedStruct got => "expected a struct, got=" ++ got
  | .expectedNumeric got => "expected a numeric type, got=" ++ got
  | .expectedPointer got => "can't dereference non-pointer type " ++ got
  | .notIndexable got => "can't index type " ++ got
  | .notCallable callee ty => callee ++ " of type " ++ ty ++ " is not callable"
  | .argumentCount expected received =>
    "expected " ++ toString expected ++ " argument(s), got " ++ toString received
  | .invalidCast source target => "can't cast " ++ source ++ " to " ++ target
  | .arrayLiteralTooLong length received =>
    "expected an array of length " ++ toString length ++ " or less, got " ++ toString received ++
      " element(s)"
  | .notAllPathsReturn function =>
    "not all paths of the function '" ++ function ++ "' return a variable"
  | .returnOutsideFunction => "return outside of a function"
  | .outsideLoop keyword => keyword ++ " outside of a loop"
  | .assignmentInExpression => "assignment is not allowed inside an expression"
  | .assignmentCount expected received =>
    "assignment mismatch: " ++ toString expected ++ " target(s) but " ++ toString received ++
      " value(s)"
  | .unexpectedComma => "comma separated values are only allowed in assignments and declarations"
  | .capturedVariable name => "local variable " ++ name ++
      " can't be used inside a function literal"
  | .unknownBuiltin name => "unknown builtin function @" ++ name
  | .builtinArguments name expected => "@" ++ name ++ " expects " ++ expected
  | .moduleAsValue module => "module " ++ module ++ " can only be used with a dot"
  | .unknownModuleMember module member => "module " ++ module ++ " has no member " ++ member
  | .importUnavailable path reason => "unable to read import " ++ path ++ ": " ++ reason
  | .importCycle chain => "import cycle detected: " ++ chain
  | .importFailed path _ => "module " ++ path ++ " failed to compile"

def tip? : CheckError → Option String
  | .recursiveType _ => some "use a pointer to refer to the struct from inside itself"
  | .notAllPathsReturn _ => some "add an else branch or a trailing return"
  | .undefinedVariable name => some ("Variable `" ++ name ++ "` not declared")
  | .capturedVariable _ =>
    some "function literals can't capture local variables, pass them as parameters"
  | .importFailed _ count => some (toString count ++ " error(s) reported in the module")
  | _ => none

end CheckError

namespace Cause

def name : Cause → String
  | .parse e => e.name
  | .check e => e.name

def message : Cause → String
  | .parse e => e.message
  | .check e => e.message

def tip? : Cause → Option String
  | .parse e => e.tip?
  | .check e => e.tip?

end Cause

def Diagnostic.text (d : Diagnostic) : String :=
  toString d.position.line ++ ":" ++ toString d.position.column ++ ": " ++ d.cause.message

end FrontEnd
