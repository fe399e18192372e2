import FrontEnd.Checking.Types

namespace FrontEnd.Check

/-- Checks the unit under a path that is on the chain by now. The outer result is the reason why
there is no text. -/
def importFrom (path : Path) (typeArgs : List Ty) :
    Check (Except String (Except (List Diagnostic) CheckedUnit)) := do
  let s ← get
  match s.session.loader.read path with
  | .error reason => return .error reason
  | .ok source =>
    let imported ← (← read) source path typeArgs s.session
    modify fun s => { s with session := imported.2 }
    return .ok imported.1

def reportAll : List Diagnostic → Check Unit
  | [] => return
  | d :: ds => do
    report d
    reportAll ds

def importUnit (token : Token) (name : String) (typeArgs : List Ty) (path : String) :
    Check Unit := do
  let s ← get
  let file := (s.env.directory.join ⟨path⟩).normalize
  match s.session.begin? file with
  | none =>
    let chain := s.session.chain ++ [file]
    error (.importCycle (" -> ".intercalate (chain.map (·.text)))) token
  | some session =>
    modify fun s => { s with session := session }
    let result ← importFrom file typeArgs
    modify fun s => { s with session := s.session.finish file }
    match result with
    | .error reason => error (.importUnavailable path reason) token
    | .ok (.error ds) =>
      error (.importFailed path ds.length) token
      reportAll ds
    | .ok (.ok unit) =>
      modifyEnv fun e => { e with modules := Table.insert e.modules name ⟨name, file, unit⟩ }

end FrontEnd.Check
