import FrontEnd.Diagnostic.Basic
import FrontEnd.Environment
import FrontEnd.Ty.Printer
import FrontEnd.Ty.Reference

namespace FrontEnd

inductive Fault where
  /-- A scope is left that was not entered. -/
  | noOpenScope
  /-- A loop is left that was not entered. -/
  | noOpenLoop
  /-- A builtin function has fewer arguments than it takes. -/
  | missingArgument
  deriving DecidableEq, Repr

structure CheckState where
  env : Environment
  session : Session
  errors : List Diagnostic
  /-- Whether every path through the statements checked so far has returned. -/
  returns : Bool
  /-- The result of the function around, if there is one. -/
  expected : Option Ty
  /-- How many loops of that function are around. -/
  loopDepth : Nat
  /-- The depth of the scopes outside the innermost function literal. What is bound at that depth
  or outside is out of reach, unless it is global. -/
  barrier : Option Nat

namespace CheckState

def start (id : String) (directory : Path) (session : Session) : CheckState :=
  ⟨.start id directory, session, [], false, none, 0, none⟩

/-- The types that the unit's references stand for. Names stand for records only, so that nothing
is left to follow after the first. -/
def resolver (s : CheckState) : Resolver :=
  ⟨s.env.lookup s.session.registry, 0⟩

def declared (s : CheckState) : List Ty :=
  s.env.declared ++ s.session.registry.map (·.2)

end CheckState

abbrev Importer :=
  String → Path → List Ty → Session →
    Except Fault (Except (List Diagnostic) CheckedUnit × Session)

abbrev Check := ReaderT Importer (StateT CheckState (Except Fault))

namespace Check

def report (d : Diagnostic) : Check Unit :=
  modify fun s =>
    if s.session.config.accepts s.errors.length then { s with errors := s.errors ++ [d] } else s

def error (e : CheckError) (token : Token) : Check Unit :=
  report ⟨.check e, token.start⟩

def mismatch (expected got : Ty) (token : Token) : Check Unit :=
  error (.typeMismatch expected.text got.text) token

def resolve (t : Ty) : Check Ty :=
  return (← get).resolver.resolve t

def resolveSignature (sig : Signature) : Check Signature :=
  return (← get).resolver.resolveSignature sig

def equals (a b : Ty) : Check Bool :=
  return a.equals (← get).resolver b

def expectEqual (expected got : Ty) (token : Token) : Check Unit := do
  if !(← equals expected got) then mismatch expected got token

/-- Resolves a type in which every reference has to be known; with an unknown one it is `todo`. -/
def resolveAll (t : Ty) (token : Token) : Check Ty := do
  let t ← resolve t
  match t.firstRef? with
  | some ref =>
    error (.unknownType (Ty.named ref).text) token
    return .todo
  | none => return t

/-- Resolves the type of a value. What is stored in the value itself has to be known; with an
unknown reference there it is `todo`. -/
def resolveValue (t : Ty) (token : Token) : Check Ty := do
  let t ← resolve t
  match t.element with
  | .named ref =>
    error (.unknownType (Ty.named ref).text) token
    return .todo
  | _ => return t

def modifyEnv (f : Environment → Environment) : Check Unit :=
  modify fun s => { s with env := f s.env }

def declare (name : String) (ty : Ty) : Check Unit :=
  modifyEnv fun e => { e with vars := e.vars.add name ty }

/-- Declares names in order, each with its type; what is left of the longer list is ignored. -/
def declareEach : List String → List Ty → Check Unit
  | name :: names, ty :: types => do
    declare name ty
    declareEach names types
  | _, _ => return

def defineType (name : String) (ty : Ty) : Check Unit :=
  modify fun s =>
    { s with
      session := if s.env.types.depth = 0 then s.session.register name ty else s.session
      env := { s.env with types := s.env.types.add name ty } }

def enterScope : Check Unit :=
  modifyEnv fun e => { e with vars := e.vars.enter, types := e.types.enter }

def leaveScope : Check Unit := do
  let e := (← get).env
  match e.vars.leave, e.types.leave with
  | .ok vars, .ok types => modifyEnv fun e => { e with vars, types }
  | _, _ => throw .noOpenScope

def setReturns (b : Bool) : Check Unit :=
  modify fun s => { s with returns := b }

def enterLoop : Check Unit :=
  modify fun s => { s with loopDepth := s.loopDepth + 1 }

def leaveLoop : Check Unit := do
  match (← get).loopDepth with
  | n + 1 => modify fun s => { s with loopDepth := n }
  | 0 => throw .noOpenLoop

def enterBranch : Check Unit := do
  setReturns false
  enterScope

def leaveBranch : Check Bool := do
  leaveScope
  let returns := (← get).returns
  setReturns false
  return returns

/-- Begins the body of a function: a scope with its parameters, outside all loops. Gives back the
state around the function. -/
def enterFunction (sig : Signature) : Check CheckState := do
  let around ← get
  enterScope
  declareEach sig.names sig.params
  modify fun s => { s with expected := some sig.result, loopDepth := 0, returns := false }
  return around

/-- Ends the body of a function, in which all paths have to return unless the result is `void`. -/
def leaveFunction (around : CheckState) (sig : Signature) (name : String) (token : Token) :
    Check Unit := do
  let returns := (← get).returns
  setReturns around.returns
  if !returns && !(← equals sig.result .void) then
    error (.notAllPathsReturn name) token
  leaveScope
  modify fun s => { s with expected := around.expected, loopDepth := around.loopDepth }

def checkInLoop (keyword : String) (token : Token) : Check Unit := do
  if (← get).loopDepth = 0 then error (.outsideLoop keyword) token

end Check

end FrontEnd
