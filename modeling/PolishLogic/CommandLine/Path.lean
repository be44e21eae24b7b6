import PolishLogic.CommandLine.FormulaFile

/-! # Paths and directories

A path is brought to a normal form before it is used or shown: empty parts and parts that stand
for the directory they are in are dropped, and parts that stand for the parent are kept.

`Directory.read` looks a path up in a directory whose contents are known, from the first part
to the last. Beyond the directory itself nothing but further directories is known. -/

namespace PolishLogic
namespace CommandLine

/-- A path taken apart at its slashes. -/
structure Path where
  root : String
  parts : List String
  deriving DecidableEq, Repr

namespace Path

/-- Two slashes at the start are a root of their own; any other number is the same as one. -/
def rootOf (s : String) : String :=
  match (s.toList.takeWhile (· == '/')).length with
  | 0 => ""
  | 2 => "//"
  | _ => "/"

def ofString (s : String) : Path :=
  ⟨rootOf s, (s.splitOn "/").filter fun part => part != "" && part != "."⟩

/-- A path as it is shown. The empty one is that of the directory itself. -/
def toString (p : Path) : String :=
  match p.root ++ "/".intercalate p.parts with
  | "" => "."
  | s => s

end Path

/-- The files and the folders below a directory, each at its parts. -/
structure Directory where
  files : List (List String × List UInt8)
  folders : List (List String)
  deriving DecidableEq, Repr

namespace Directory

def ofNames (files : List (String × List UInt8)) (folders : List String) : Directory :=
  ⟨files.map fun (name, bytes) => ((Path.ofString name).parts, bytes),
    folders.map fun name => (Path.ofString name).parts⟩

/-- A folder is one that is named or that something else lies in. -/
def isFolder (d : Directory) (parts : List String) : Bool :=
  parts.isEmpty || d.folders.any parts.isPrefixOf ||
    d.files.any fun f => parts.isPrefixOf f.1 && parts != f.1

/-- Where the way along a path has led to. -/
inductive Place where
  | folder (parts : List String)
  | file (bytes : List UInt8)
  /-- Somewhere above the directory. -/
  | outside

def maxPart : Nat := 255

/-- The longest a path can be, in bytes. -/
def maxPath : Nat := 4095

/-- Follows the parts of a path, the whole of which is shown in errors. -/
def follow (d : Directory) (shown : String) : Place → List String → Except FileError Place
  | place, [] => .ok place
  | .file _, _ :: _ => .error (.notDirectory shown)
  | .outside, ".." :: parts => d.follow shown .outside parts
  | .outside, part :: _ =>
    .error (if maxPart < part.utf8ByteSize then .nameTooLong shown else .notFound shown)
  | .folder [], ".." :: parts => d.follow shown .outside parts
  | .folder here, ".." :: parts => d.follow shown (.folder here.dropLast) parts
  | .folder here, part :: parts =>
    let next := here ++ [part]
    if maxPart < part.utf8ByteSize then .error (.nameTooLong shown)
    else match d.files.lookup next with
      | some bytes => d.follow shown (.file bytes) parts
      | none =>
        if d.isFolder next then d.follow shown (.folder next) parts
        else .error (.notFound shown)

/-- The bytes of the file at a path, which is counted from the directory if it has no root. -/
def read (d : Directory) (path : String) : Except FileError (List UInt8) :=
  let p := Path.ofString path
  let shown := p.toString
  if shown.toList.contains '\x00' then .error .nullInPath
  else if maxPath < shown.utf8ByteSize then .error (.nameTooLong shown)
  else
    match d.follow shown (if p.root.isEmpty then .folder [] else .outside) p.parts with
    | .error e => .error e
    | .ok (.file bytes) => .ok bytes
    | .ok _ => .error (.isDirectory shown)

end Directory
end CommandLine
end PolishLogic
