set_option autoImplicit false

/-! # Files

A small tree of files, as a value. A path is followed from the root, or from the working directory
if it does not start with a slash; what it names can be read, replaced and extended. -/

namespace Entail

/-- What a path may name. -/
inductive FileNode where
  | directory
  | text (content : String)
  /-- empty for readers, and all that is written to it is lost -/
  | null
  /-- a file that can be run, and that holds no text -/
  | program
  deriving DecidableEq, Inhabited

/-- Why a path cannot be followed, or what it names cannot be read or run. -/
inductive FileError where
  | missing
  | denied
  | notDirectory
  | isDirectory
  | nameTooLong
  /-- the path holds the null character -/
  | nullInPath
  /-- the file holds no text -/
  | notText
  deriving DecidableEq, Inhabited

/-- What an error says. -/
def FileError.reason : FileError → String
  | .missing => "No such file or directory"
  | .denied => "Permission denied"
  | .notDirectory => "Not a directory"
  | .isDirectory => "Is a directory"
  | .nameTooLong => "File name too long"
  | .nullInPath => "file name contained an unexpected NUL byte"
  | .notText => "stream did not contain valid UTF-8"

/-- The number by which the system knows an error, if it does. -/
def FileError.number? : FileError → Option Nat
  | .missing => some 2
  | .denied => some 13
  | .notDirectory => some 20
  | .isDirectory => some 21
  | .nameTooLong => some 36
  | .nullInPath | .notText => none

/-- The message of an error, with its number. -/
def FileError.text (e : FileError) : String :=
  match e.number? with
  | some n => e.reason ++ " (os error " ++ toString n ++ ")"
  | none => e.reason

/-- The names on the way from the root to a file. -/
abbrev FilePath := List String

/-- All files by their path. The root is always there. -/
structure Files where
  nodes : List (FilePath × FileNode)
  /-- where relative paths start -/
  working : FilePath
  deriving DecidableEq, Inhabited

namespace Files

def node? (fs : Files) (path : FilePath) : Option FileNode :=
  if path.isEmpty then some .directory else fs.nodes.lookup path

/-- How long a name in a path may be, in bytes. -/
def nameLimit : Nat := 255

/-- How long a path may be, in bytes. -/
def pathLimit : Nat := 4095

/-- Follow names from a directory. Names before the last one must be of directories; the last one
    may name nothing. -/
def follow (fs : Files) : (start : FilePath) → List String → Except FileError FilePath
  | path, [] => .ok path
  | path, name :: names =>
    if name.isEmpty || name == "." then follow fs path names
    else if name == ".." then follow fs path.dropLast names
    else if nameLimit < name.utf8ByteSize then .error .nameTooLong
    else
      let path := path ++ [name]
      match names, fs.node? path with
      | [], _ => .ok path
      | _ :: _, some .directory => follow fs path names
      | _ :: _, some _ => .error .notDirectory
      | _ :: _, none => .error .missing

/-- The place that a path leads to. -/
def resolve (fs : Files) (path : String) : Except FileError FilePath :=
  if path.contains '\x00' then .error .nullInPath
  else if path.isEmpty then .error .missing
  else if pathLimit < path.utf8ByteSize then .error .nameTooLong
  else
    match path.splitOn "/" with
    | "" :: names => fs.follow [] names
    | names => fs.follow fs.working names

/-- What a path names. -/
def find (fs : Files) (path : String) : Except FileError FileNode := do
  match fs.node? (← fs.resolve path) with
  | some node => return node
  | none => throw .missing

/-- The text that a path names. -/
def read (fs : Files) (path : String) : Except FileError String := do
  match ← fs.find path with
  | .directory => throw .isDirectory
  | .text content => return content
  | .null => return ""
  | .program => throw .notText

/-- Where programs are looked for by their name alone. -/
def searchPath : List FilePath := [["usr", "local", "bin"], ["usr", "bin"], ["bin"]]

/-- The name of the program that a node is, if its place is that of one. -/
def runnable (place : FilePath) : FileNode → Except FileError String
  | .program => .ok (place.getLastD "")
  | _ => .error .denied

/-- The program to run for a name. A name without a slash is looked up in the places for programs;
    the last reason other than that there is no such file is the one that counts. -/
def program (fs : Files) (name : String) : Except FileError String :=
  if name.contains '/' then do
    let place ← fs.resolve name
    match fs.node? place with
    | some node => runnable place node
    | none => throw .missing
  else if name.contains '\x00' then .error .nullInPath
  else if name.isEmpty then .error .missing
  else if nameLimit < name.utf8ByteSize then .error .nameTooLong
  else
    searchPath.foldr (fun directory later =>
      match fs.follow directory [name] with
      | .error e => .error e
      | .ok place =>
        match fs.node? place with
        | none => later
        | some node =>
          match runnable place node, later with
          | .ok found, _ => .ok found
          | .error _, .ok found => .ok found
          | .error e, .error _ => .error e) (.error .missing)

/-- Put a node in a place, instead of what the place held. -/
def putNode (fs : Files) (path : FilePath) (node : FileNode) : Files :=
  { fs with nodes := (path, node) :: fs.nodes.filter (·.1 != path) }

/-- Put a text in a place, instead of what the place held. -/
def put (fs : Files) (path : FilePath) (content : String) : Files :=
  fs.putNode path (.text content)

/-- Take away what is in a place, and all that is inside it. -/
def remove (fs : Files) (path : FilePath) : Files :=
  { fs with nodes := fs.nodes.filter fun n => !path.isPrefixOf n.1 }

/-- Replace the text that a path names, or make a new file; `append` keeps the text that was
    there. The directory must be there. -/
def write (fs : Files) (path : String) (append : Bool) (content : String) :
    Except FileError Files := do
  let place ← fs.resolve path
  match fs.node? place with
  | some .directory => throw .isDirectory
  | some .null => return fs
  | some .program => return fs.put place content
  | some (.text old) => return fs.put place (if append then old ++ content else content)
  | none =>
    match fs.node? place.dropLast with
    | some .directory => return fs.put place content
    | _ => throw .missing

/-- The files of a machine on which so many programs are installed. -/
def machine (programs : List String) : Files where
  nodes :=
    [["bin"], ["dev"], ["etc"], ["home"], ["lib"], ["mnt"], ["opt"], ["proc"], ["root"], ["run"],
      ["sbin"], ["srv"], ["sys"], ["tmp"], ["usr"], ["usr", "bin"], ["usr", "lib"],
      ["usr", "local"], ["usr", "local", "bin"], ["usr", "sbin"], ["usr", "share"], ["var"],
      ["var", "tmp"], ["work"]].map (·, .directory) ++
    [(["dev", "null"], .null),
      (["etc", "passwd"], .text "root:x:0:0:root:/root:/bin/bash\n"),
      (["etc", "group"], .text "root:x:0:\n"),
      (["etc", "hosts"], .text "127.0.0.1\tlocalhost\n"),
      (["etc", "hostname"], .text "machine\n")] ++
    programs.flatMap fun name =>
      [(["bin", name], .program), (["usr", "bin", name], .program)]
  working := ["work"]

end Files

end Entail
