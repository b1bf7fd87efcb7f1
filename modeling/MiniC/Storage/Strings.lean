import MiniC.Code.Basic

namespace MiniC.Storage

open Code

/-- What became of a list of statements. If a generated name was taken already, the statements from
there on are left as they are. -/
structure Extraction where
  body : List Stmt
  globals : List Global
  names : Namer
  collision : Option Name

def extractStrings (names : Namer) (globals : List Global) : (body : List Stmt) → Extraction
  | [] => ⟨[], globals, names, none⟩
  | ⟨label, .store dest (some (.str text))⟩ :: body =>
    let (name, names) := names.fresh Name.string
    if globals.any fun g => g.name == name then
      ⟨⟨label, .store dest (some (.str text))⟩ :: body, globals, names, some name⟩
    else
      let rest := extractStrings names (globals ++ [⟨name, .string, some (.str text)⟩]) body
      { rest with body := ⟨label, .store dest (some (.symbol name))⟩ :: rest.body }
  | s :: body =>
    let rest := extractStrings names globals body
    { rest with body := s :: rest.body }

end MiniC.Storage
