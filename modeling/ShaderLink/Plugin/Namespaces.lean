import ShaderLink.Plugin.Basic
import ShaderLink.Table

/-!
# Namespace imports

A module may be imported as a whole: after `import "random" as rnd;` the name `rnd.2d.random2`
stands for `random2` of the module `random/2d`.  Before the module is read, each such statement is
turned into imports of the names that are used, under aliases.
-/

namespace ShaderLink.Namespaces

open Pattern

/-- An import of a namespace: the quote in use (1), the path (2) and the name (3). -/
def statementForm : Pattern :=
  phrase "import" ++ gap ++ group 1 (optional (oneOf "\"'`")) ++
  group 2 (many1 (one fun c => !Text.isBlank c && !"\"'`;\x7b\x7d".toList.contains c)) ++
  again 1 ++ gap ++ phrase "as" ++ gap ++ group 3 identifier ++ many (oneOf " \t") ++
  optional (lit ';')

/-- A use of a namespace: its name and further words, with dots between them. -/
def usageForm (name : Text) : Pattern :=
  wordEdge ++ group 1 (exactly name ++ many1 (lit '.' ++ identifier)) ++ wordEdge

/-- The different uses of a namespace, in order. -/
def usages (name code : Text) : List Text := ((usageForm name).findAll code).map (·.group 1)
  |>.eraseDups

/-- The name under which a used declaration is imported: the use with underscores for dots. -/
def aliasOf (usage : Text) : Text := usage.map fun c => if c = '.' then '_' else c

/-- The path of the module that a use refers to. -/
def moduleOf (path usage : Text) : Text :=
  Text.join ['/'] (path :: ((usage.split '.').drop 1).dropLast)

/-- The entry that imports what a use refers to. -/
def entryOf (usage : Text) : Text :=
  ((usage.split '.').getLast?.getD []) ++ " as ".toList ++ aliasOf usage

/-- The entries by module, for the uses of a namespace. -/
def entriesByModule (path : Text) (usages : List Text) : Table Text (List Text) :=
  usages.foldl (fun t u =>
    let target := moduleOf path u
    t.insert target ((t.get? target).getD [] ++ [entryOf u])) []

/-- An import statement for the entries of one module. -/
def block (entries : Text × List Text) : Text :=
  "import \x7b\n  ".toList ++ Text.join ",\n  ".toList entries.2 ++
  "\n\x7d from \"".toList ++ entries.1 ++ "\";".toList

/-- Writes the aliases in the place of the uses. -/
def applyAliases (usages : List Text) (code : Text) : Text :=
  usages.foldl (fun code u => code.replaceWord u (aliasOf u)) code

/-- Turns one statement into imports of names; also the number of these imports. -/
def expandOne (m : Match) (code : Text) : Text × Nat :=
  let used := usages (m.group 3) code
  let imports := entriesByModule (m.group 2) used
  let new := Text.join ['\n'] (imports.map block)
  (Text.replaceFirst m.text new (applyAliases used code), imports.length)

/-- Expands statements until there are none, at most `fuel` times. -/
def expandFrom : (fuel : Nat) → Text → Text × List Notice
  | 0, code => (code, [])
  | fuel + 1, code =>
    match statementForm.search code with
    | none => (code, [])
    | some m =>
      let (code, imports) := expandOne m code
      let (code, notices) := expandFrom fuel code
      (code, .expandedNamespace (m.group 3) (m.group 2) imports :: notices)

/-- Expands all statements.  Each round uses up a statement of the given text, or a dot in the
path of one, so there are no more rounds than characters. -/
def expand (code : Text) : Text × List Notice := expandFrom (code.length + 1) code

/-- The plugin for namespace imports. -/
def plugin (serial : Nat) : Plugin where
  id := "namespaced-imports".toList
  serial := serial
  preprocess _ code :=
    let (code, notices) := expand code
    (.ok code, notices)

end ShaderLink.Namespaces
