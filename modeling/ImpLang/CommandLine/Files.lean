namespace ImpLang

inductive FileError where
  | notFound
  | notDirectory
  | isDirectory
  | nameTooLong
  | zeroInPath
  | notText
  /-- Whatever else a file system may say. -/
  | refused (reason : String)
deriving DecidableEq, Repr

def FileError.message : FileError → String
  | notFound => "No such file or directory (os error 2)"
  | notDirectory => "Not a directory (os error 20)"
  | isDirectory => "Is a directory (os error 21)"
  | nameTooLong => "File name too long (os error 36)"
  | zeroInPath => "file name contained an unexpected NUL byte"
  | notText => "stream did not contain valid UTF-8"
  | refused reason => reason

abbrev Files := String → Except FileError ByteArray

/-- The text of a file, which must be valid UTF-8. -/
def Files.read (files : Files) (path : String) : Except FileError String := do
  match String.fromUTF8? (← files path) with
  | some text => return text
  | none => throw .notText

/-- The files of a working directory with their places in it, given as steps from the directory. -/
structure Directory where
  entries : List (List String × ByteArray)

namespace Directory

def isStill (step : String) : Bool := step == "" || step == "."

def steps (path : String) : List String := path.splitOn "/"

def ofList (named : List (String × ByteArray)) : Directory :=
  ⟨named.map fun (path, content) => ((steps path).filter (!isStill ·), content)⟩

def content? (d : Directory) (place : List String) : Option ByteArray :=
  (d.entries.find? (·.1 == place)).map Prod.snd

def hasDirectory (d : Directory) (place : List String) : Bool :=
  place.isEmpty || d.entries.any fun (other, _) =>
    place.length < other.length && other.take place.length == place

def longestName : Nat := 255

def longestPath : Nat := 4095

/-- Walks from a place in the directory. Nothing is known of what lies outside. -/
def walk (d : Directory) (place : List String) : List String → Except FileError ByteArray
  | [] => .error .isDirectory
  | step :: rest =>
    if isStill step then walk d place rest
    else if step == ".." then
      if place.isEmpty then .error .notFound else walk d place.dropLast rest
    else if longestName < step.utf8ByteSize then .error .nameTooLong
    else
      match d.content? (place ++ [step]) with
      | some content => if rest.isEmpty then .ok content else .error .notDirectory
      | none =>
        if d.hasDirectory (place ++ [step]) then walk d (place ++ [step]) rest
        else .error .notFound

def files (d : Directory) : Files := fun path =>
  if path.contains '\x00' then .error .zeroInPath
  else if path.isEmpty then .error .notFound
  else if longestPath < path.utf8ByteSize then .error .nameTooLong
  else if path.toList.head? == some '/' then .error .notFound
  else d.walk [] (steps path)

end Directory

end ImpLang
