import UtilityCss.Compiler.Basic
import UtilityCss.Import.Files

/-!
# Compiling files
-/

namespace UtilityCss

/-- Compiles the stylesheet in a file; none if there is no such file. -/
def compileFile (fs : Files) (p : Path) (modules : List (String × Module)) :
    Option (Except CompileError Compiler) :=
  match fs.find p with
  | .content css => some (compile css p.parent.text (.ofFiles fs modules))
  | _ => none

end UtilityCss
