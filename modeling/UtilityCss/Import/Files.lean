import UtilityCss.Import.Resolver
import UtilityCss.Text.Blank
import UtilityCss.Text.Find

/-!
# Files

Stylesheets and configurations may lie in a tree of files. A path is a list of names, in which `..`
leads to the directory above and `.` stays where it is. The latter stands at the end of a path that
is to lead to a directory. Names of stylesheets without an extension get `.css`.
-/

namespace UtilityCss

abbrev Path := List String

namespace Path

/-- The names that lead somewhere. -/
def steps (p : Path) : Path := p.filter fun name => name != "" && name != "."

/-- The names in the text of a path. One that ends in a slash or in `.` leads to a directory. -/
def read (text : String) : Path :=
  let names := Text.splitBy (· == '/') text
  steps names ++ if names.getLast?.any fun name => name == "" || name == "." then ["."] else []

/-- The path of a text that is relative to another path, unless it begins at the root. -/
def join (p : Path) (text : String) : Path :=
  if Text.startsWith text "/" then read text else p ++ read text

/-- The text of a path from the root. -/
def text (p : Path) : String := "/" ++ "/".intercalate p

def parent (p : Path) : Path := p.steps.dropLast

/-- The name that a path leads to by going down. -/
def fileName? (p : Path) : Option String := p.steps.getLast?.filter (· != "..")

/-- What follows the last point in the name of a file, unless the name begins with that point. -/
def extension? (p : Path) : Option String := do
  let (stem, extension) ← Text.cutAtLast (· == '.') (← p.fileName?)
  if stem.isEmpty then none else return extension

/-- Adds an extension to a name that has none, which then is the name of a file. -/
def withExtension (p : Path) (extension : String) : Path :=
  match p.fileName?, p.extension? with
  | some name, none => p.parent ++ [name ++ "." ++ extension]
  | _, _ => p

end Path

/-- Files by their paths from the root, in which no name is `.` or `..`. -/
abbrev Files := List (Path × String)

/-- What is found at the end of a path. -/
inductive FileLookup where
  | content (text : String)
  | missing
  /-- The path leads to a directory, or through a file. -/
  | unreadable
  deriving DecidableEq, Repr

namespace Files

def isDirectory (fs : Files) (p : Path) : Bool :=
  p.isEmpty || fs.any fun (q, _) => p.isPrefixOf q && p != q

/-- Follows names from a directory. -/
def follow (fs : Files) (directory : Path) : Path → FileLookup
  | [] => .unreadable
  | "." :: names => follow fs directory names
  | ".." :: names => follow fs directory.dropLast names
  | name :: names =>
    let p := directory ++ [name]
    if fs.isDirectory p then follow fs p names
    else match fs.lookup p with
      | some text => if names.isEmpty then .content text else .unreadable
      | none => .missing

/-- What a path from the root leads to. -/
def find (fs : Files) (p : Path) : FileLookup := fs.follow [] p

end Files

/-- The text that is found for a name, or why there is none. -/
def FileLookup.get (l : FileLookup) (name : String) (p : Path) : Except ResolveError String :=
  match l with
  | content text => .ok text
  | missing => .error (.notFound name)
  | unreadable => .error (.unreadable p.text)

namespace Resolver

/-- Reads stylesheets and configurations from files. Names are relative to the directory of the file
that they stand in. Plugins, and modules that go before files, are known by name. -/
def ofFiles (fs : Files) (modules : List (String × Module)) : Resolver where
  stylesheet name base := do
    let p := ((Path.read base).join name).withExtension "css"
    return (← (fs.find p).get name p, p.parent.text)
  module kind name base :=
    match modules.lookup name with
    | some m => .ok (m, base)
    | none => do
      let p := (Path.read base).join name
      if kind == .plugin || p.extension? != some "json" then .error (.unsupported name)
      else match Config.read? (← (fs.find p).get name p) with
        | some c => return (.config c, p.parent.text)
        | none => .error (.invalidConfig name)

end Resolver

end UtilityCss
