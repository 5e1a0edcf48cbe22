import ShaderLink.CommandLine

/-!
# The program

Reads the files and folders that the arguments name, runs the command line on them, and writes what
comes of it.
-/

namespace ShaderLink.Disk

/-- The entry on disk that a route names. -/
def entryAt (r : Route) : IO.FS.DirEntry := ⟨".", String.ofList r.text⟩

/-- Everything below a folder on disk. -/
partial def below (r : Route) (e : IO.FS.DirEntry) : IO (List (Route × Option File)) := do
  let mut found := []
  for inner in ← e.path.readDir do
    let route := r ++ [inner.fileName.toList]
    if ← inner.path.isDir then
      found := (route, none) :: (← below route inner) ++ found
    else
      found := (route, some (← IO.FS.readBinFile inner.path)) :: found
  return found

/-- The folders on the way to a route. -/
def onTheWay (r : Route) : IO (List (Route × Option File)) := do
  let steps := (List.range r.length).map fun n => r.take (n + 1)
  let folders ← steps.filterM fun s => (entryAt s).path.isDir
  return folders.map fun s => (Route.direct s, none)

/-- What a route leads to: a file, or a folder with everything in it. -/
def content (r : Route) : IO (List (Route × Option File)) := do
  let e := entryAt r
  if ← e.path.isDir then below r.direct e
  else if ← e.path.pathExists then return [(r.direct, some (← IO.FS.readBinFile e.path))]
  else return []

/-- The files and folders that a request names. -/
def folderFor (r : Commands.Request) : IO Folder := do
  let sources := r.sources.map Route.ofText
  let outputs := r.options.output.toList.map Route.ofText
  let folders ← (sources ++ outputs).mapM onTheWay
  let contents ← sources.mapM content
  return Folder.ofFiles (folders.flatten ++ contents.flatten)

/-- Writes the file of a route as it is in a folder. -/
def write (root : Folder) (r : Route) : IO Unit := do
  match root.entry r with
  | .ok (.file f) => IO.FS.writeBinFile (entryAt r).path f
  | _ => return

end ShaderLink.Disk

open ShaderLink

/-- Runs the program. -/
def main (args : List String) : IO UInt32 := do
  let args := args.map String.toList
  let request := CommandLine.request args
  let root ← (request.mapM Disk.folderFor : IO (Option Folder))
  let ending := CommandLine.run (root.getD .nil) args
  if ending.code = 0 then
    (request.bind (·.options.output)).forM fun file => Disk.write ending.root (Route.ofText file)
  (← IO.getStdout).putStr (String.ofList ending.shown)
  (← IO.getStderr).putStr (String.ofList ending.log)
  ending.escaped.forM fun fault => do (← IO.getStderr).putStrLn fault.text
  return ending.code.toUInt32
