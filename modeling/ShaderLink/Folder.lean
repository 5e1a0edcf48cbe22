import ShaderLink.Fault
import ShaderLink.Text.Order
import ShaderLink.Tree

/-!
# Folders

A folder is a tree of files, whose entries stand in the order of their names.  A route is the list
of names on the way to an entry; it is found from a root folder, and a step to the folder above
leaves the last folder that was entered.
-/

namespace ShaderLink

/-- The content of a file. -/
abbrev File := ByteArray

/-- Files and folders by name. -/
abbrev Folder := Tree File

/-! ## Routes -/

/-- Names that lead to an entry. -/
abbrev Route := List Text

namespace Route

/-- The route that a text describes: empty names and single dots do not count, but for the empty
name in front of a first slash. -/
def ofText (t : Text) : Route :=
  let names := (t.split '/').filter fun n => !n.isEmpty && n != ['.']
  if t.head? = some '/' then [] :: names else names

/-- The text of a route; a dot if it has no names. -/
def text (r : Route) : Text := if r.isEmpty then ['.'] else Text.join ['/'] r

/-- The last name of a route. -/
def name (r : Route) : Text := r.getLast?.getD []

/-- How many bytes a text takes in a file system. -/
def bytes (t : Text) : Nat := (String.ofList t).utf8ByteSize

/-- The route holds a null character, so that nothing can be found at it. -/
def hasNull (r : Route) : Bool := r.any (·.any (·.toNat == 0))

/-- The bytes that a whole route must not reach. -/
def limit : Nat := 4096

/-- Something can be looked for at the route at all. -/
def check (r : Route) : Except Fault Unit :=
  if r.hasNull then .error Cause.nullInPath.fault
  else if limit ≤ bytes r.text then .error (Cause.pathTooLong r.text).fault
  else .ok ()

/-- The step to the folder above. -/
def above : Text := ['.', '.']

/-- The same route with steps up taken back where they can be. -/
def direct (r : Route) : Route :=
  (r.foldl (fun back n => if n == above && back.head?.any (· != above) then back.tail else n :: back)
    []).reverse

end Route

/-! ## Contents -/

namespace File

/-- A line feed alone ends a line; a carriage return in front of it or in its place is dropped. -/
def unifyLines : Text → Text
  | [] => []
  | '\r' :: '\n' :: t => '\n' :: unifyLines t
  | c :: t => (if c = '\r' then '\n' else c) :: unifyLines t

/-- The text in a file. -/
def text (f : File) : Except Fault Text :=
  match String.fromUTF8? f with
  | none => .error Cause.notText.fault
  | some s => .ok (unifyLines s.toList)

/-- A file with a text. -/
def ofText (t : Text) : File := (String.ofList t).toUTF8

end File

/-- What a route leads to. -/
inductive Entry where
  | file (f : File)
  | folder (t : Folder)

namespace Folder

/-- The entry of a name. -/
def get? : Folder → Text → Option Entry
  | .nil, _ => none
  | .leaf key f rest, name => if key = name then some (.file f) else get? rest name
  | .branch key inner rest, name => if key = name then some (.folder inner) else get? rest name

/-- The most bytes that a name may have. -/
def nameLimit : Nat := 255

/-- Follows a route, with the folders above at hand. -/
def walk (all : Route) : List Folder → Folder → Route → Except Fault Entry
  | _, here, [] => .ok (.folder here)
  | up, here, name :: rest =>
    match up, name == Route.above with
    | outer :: up, true => walk all up outer rest
    | _, _ =>
      if nameLimit < Route.bytes name then .error (Cause.pathTooLong all.text).fault
      else
        match here.get? name with
        | none => .error (Cause.noFile all.text).fault
        | some (.folder inner) => walk all (here :: up) inner rest
        | some (.file f) =>
          if rest.isEmpty then .ok (.file f) else .error (Cause.notAFolder all.text).fault

/-- The entry at a route. -/
def entry (root : Folder) (r : Route) : Except Fault Entry := do
  r.check
  walk r [] root r

/-- What a route leads to, if to anything at all; whether there is something at a path that is too
long cannot be told. -/
def find? (root : Folder) (r : Route) : Except Fault (Option Entry) :=
  match root.entry r with
  | .ok e => .ok (some e)
  | .error fault =>
    match fault.cause with
    | .pathTooLong _ => .error fault
    | _ => .ok none

/-- The route leads to a folder. -/
def isFolder (root : Folder) (r : Route) : Except Fault Bool := do
  match ← root.find? r with
  | some (.folder _) => return true
  | _ => return false

/-- The text of the file at a route. -/
def readText (root : Folder) (r : Route) : Except Fault Text := do
  match ← root.entry r with
  | .file f => f.text
  | .folder _ => throw (Cause.isAFolder r.text).fault

/-- The folder at a route. -/
def readFolder (root : Folder) (r : Route) : Except Fault Folder := do
  match ← root.entry r with
  | .folder t => return t
  | .file _ => throw (Cause.notAFolder r.text).fault

/-! ## Changing folders -/

/-- A single file, or an empty folder, at a route, in front of other entries. -/
def put : Route → Option File → Folder → Folder
  | [], _, rest => rest
  | [name], some f, rest => .leaf name f rest
  | [name], none, rest => .branch name .nil rest
  | name :: r, f, rest => .branch name (put r f .nil) rest

/-- Puts a file, or an empty folder, at a route; missing folders on the way are made. -/
def insert (r : Route) (f : Option File) : Folder → Folder
  | .nil => put r f .nil
  | .leaf key g rest =>
    match r with
    | [] => .leaf key g rest
    | name :: _ =>
      if name = key then put r f rest
      else if name.precedes key then put r f (.leaf key g rest)
      else .leaf key g (insert r f rest)
  | .branch key inner rest =>
    match r with
    | [] => .branch key inner rest
    | name :: r' =>
      if name = key then
        match r', f with
        | [], some g => .leaf key g rest
        | _, _ => .branch key (insert r' f inner) rest
      else if name.precedes key then put r f (.branch key inner rest)
      else .branch key inner (insert r f rest)

/-- Makes all folders on the way to the end of a route. -/
def insertFolders (r : Route) (root : Folder) : Folder :=
  (List.range (r.length + 1)).foldl (fun t n => insert (Route.direct (r.take n)) none t) root

/-- A folder with the given files; a route without a file is an empty folder. -/
def ofFiles (files : List (Route × Option File)) : Folder :=
  files.foldl (fun t p => insert p.1.direct p.2 (insertFolders p.1.dropLast t)) .nil

/-- Writes a text to a file; the folder that holds it must exist. -/
def writeText (root : Folder) (r : Route) (t : Text) : Except Fault Folder :=
  match root.entry r with
  | .ok (.folder _) => .error (Cause.isAFolder r.text).fault
  | .ok (.file _) => .ok (insert r.direct (some (File.ofText t)) root)
  | .error fault =>
    match fault.cause, root.entry r.dropLast with
    | .noFile _, .ok (.folder _) => .ok (insert r.direct (some (File.ofText t)) root)
    | _, _ => .error fault

end Folder

end ShaderLink
