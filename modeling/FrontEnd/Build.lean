import FrontEnd.Checking.Stmts
import FrontEnd.Reading.Stmts

namespace FrontEnd.Build

def unitWith (importer : Importer) : Importer := fun source path typeArgs session => do
  let (id, session) := session.freshId
  let options : ReadOptions :=
    ⟨toString id, typeArgs, session.nextId, session.config.maxParseErrors⟩
  let result := Program.read (.ofSource source path.text) options
  let session := { session with nextId := result.nextId }
  if !result.errors.isEmpty then
    return (.error result.errors, session)
  let start := CheckState.start options.unit (path.parent?.getD ⟨""⟩) session
  let (program, s) ← (Check.program result.program).run importer |>.run start
  if s.errors.isEmpty then return (.ok ⟨program, s.env⟩, s.session)
  else return (.error s.errors, s.session)

def within : Nat → Importer
  | 0 => fun _ _ _ session => .ok (.error [], session)
  | n + 1 => fun source path typeArgs session => unitWith (within n) source path typeArgs session

/-- Reads and checks a unit. A file that is being checked is not imported again, so imports nest no
deeper than there are files. -/
def unit : Importer := fun source path typeArgs session =>
  within (session.loader.size + 1) source path typeArgs session

def file (source : String) (path : Path) (session : Session) :
    Except Fault (Except (List Diagnostic) CheckedUnit × Session) := do
  let path := path.normalize
  let (result, session) ← unit source path [] ((session.begin? path).getD session)
  return (result, session.finish path)

end FrontEnd.Build
