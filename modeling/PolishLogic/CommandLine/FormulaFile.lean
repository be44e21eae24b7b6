import PolishLogic.Text.Blank
import PolishLogic.Text.Quoted
import PolishLogic.Text.Utf8

/-! # Formula files

A file holds one formula in UTF-8, and blanks around it do not count. -/

namespace PolishLogic
namespace CommandLine

/-- Why there is no formula to be had from a file. -/
inductive FileError where
  | notFound (path : String)
  /-- The file cannot be read, for a reason that has a number. -/
  | unreadable (path : String) (code : Nat) (reason : String)
  /-- The path has a character that no path can have. -/
  | nullInPath
  | notUtf8 (e : Utf8.Error)
  | blank
  deriving DecidableEq, Repr

namespace FileError

def message : FileError → String
  | .notFound path => "Formula file not found: " ++ path
  | .unreadable path code reason =>
    "Error reading formula file: [Errno " ++ toString code ++ "] " ++ reason ++ ": " ++ quote path
  | .nullInPath => "embedded null byte"
  | .notUtf8 e => e.message
  | .blank => "Formula file is empty"

/-- The reasons for which a system refuses to read a file, by number. -/
def reasons : List (Nat × String) :=
  [(5, "Input/output error"), (13, "Permission denied"), (20, "Not a directory"),
    (21, "Is a directory"), (36, "File name too long"), (40, "Too many levels of symbolic links")]

def ofCode (path : String) (code : Nat) : FileError :=
  .unreadable path code ((reasons.lookup code).getD "Unknown error")

def notDirectory (path : String) : FileError := ofCode path 20
def isDirectory (path : String) : FileError := ofCode path 21
def nameTooLong (path : String) : FileError := ofCode path 36

end FileError

/-- The formula in a file with the given text. -/
def formulaOfText (text : List Char) : Except FileError String :=
  match trim (unifyLineEnds text) with
  | [] => .error .blank
  | cs => .ok (String.ofList cs)

def formulaOfBytes (bytes : List UInt8) : Except FileError String :=
  match Utf8.decode bytes with
  | .error e => .error (.notUtf8 e)
  | .ok text => formulaOfText text

end CommandLine
end PolishLogic
