import ShaderLink.Outline
import ShaderLink.Proofs.Phrases

/-!
# Modules that are lists of declarations

The text of a module is often nothing but well-formed declarations, one behind the other
(`Item`, `Item.text`).  This file says how each kind of them is written, and which of them the forms
of the kinds provide for (`Item.Supported`, `Item.Tame`).  While a module is read, some of its
declarations have been taken out already, with blanks in their place (`Slot`, `sourceOf`).
-/

namespace ShaderLink

open Text

/-! ## Parts of declarations -/

/-- A type and a name, with blanks around and between them. -/
structure TypedName where
  lead : Text
  type : Text
  gap : Text
  name : Text
  trail : Text
  isBlank_lead : lead.AllBlank
  isIdentifier_type : IsIdentifier type
  isGap : IsGap gap
  isIdentifier_name : IsIdentifier name
  isBlank_trail : trail.AllBlank

/-- The words of a declaration, each with the blanks behind it. -/
def TypedName.words (x : TypedName) : List (Text × Text) := [(x.type, x.gap), (x.name, x.trail)]

def TypedName.text (x : TypedName) : Text := x.lead ++ spaced x.words

/-- Each brace that opens is closed again, and no other is. -/
inductive Balanced : Text → Prop
  | nil : Balanced []
  | other {c : Char} {t : Text} : c ≠ '{' → c ≠ '}' → Balanced t → Balanced (c :: t)
  | block {t u : Text} : Balanced t → Balanced u → Balanced ('{' :: (t ++ '}' :: u))

/-- At most one precision. -/
def precisions : List (List Text) :=
  [[], ["lowp".toList], ["mediump".toList], ["highp".toList]]

/-! ## Declarations -/

/-- A function with its body, perhaps with a precision in front. -/
structure FunctionText where
  precision : List (Text × Text)
  type : Text
  gap : Text
  name : Text
  space : Text
  parameters : List TypedName
  between : Text
  body : Text
  opening : precision.map Prod.fst ∈ precisions
  isGap_precision : ∀ k ∈ precision, IsGap k.2
  isIdentifier_type : IsIdentifier type
  isGap : IsGap gap
  isIdentifier_name : IsIdentifier name
  isBlank_space : space.AllBlank
  isBlank_between : between.AllBlank
  balanced : Balanced body
  import_not_infix : ∀ g, AllBlank g → ¬ "import".toList ++ (g ++ ['{']) <:+: body
  export_not_infix : ∀ g, AllBlank g → ¬ "export".toList ++ (g ++ ['{']) <:+: body

namespace FunctionText

def words (x : FunctionText) : List (Text × Text) :=
  x.precision ++ [(x.type, x.gap), (x.name, x.space)]

/-- What stands between the parentheses. -/
def inside (x : FunctionText) : Text := Text.join [','] (x.parameters.map TypedName.text)

def text (x : FunctionText) : Text :=
  spaced x.words ++ '(' :: (x.inside ++ ')' :: (x.between ++ '{' :: (x.body ++ ['}'])))

end FunctionText

/-- A global variable with a value. -/
structure GlobalText extends Layout where
  init : Text
  value_eq : value = some init
  opening : keywords.map Prod.fst ∈ precisions ++ precisions.map ("const".toList :: ·)
  exists_not_blank : ∃ c ∈ init, isBlank c = false
  opening_not_mem : '{' ∉ init
  closing_not_mem : '}' ∉ init

/-- A uniform without a value. -/
structure UniformText extends Layout where
  value_eq : value = none
  opening : keywords.map Prod.fst ∈ precisions.map ("uniform".toList :: ·)

/-- A struct with at least one field. -/
structure StructText where
  gap : Text
  name : Text
  space : Text
  fields : List TypedName
  inner : Text
  between : Text
  isGap : IsGap gap
  isIdentifier_name : IsIdentifier name
  name_ne : name ≠ "export".toList
  isBlank_space : space.AllBlank
  fields_ne : fields ≠ []
  isBlank_inner : inner.AllBlank
  isBlank_between : between.AllBlank

namespace StructText

def words (x : StructText) : List (Text × Text) :=
  [("struct".toList, x.gap), (x.name, x.space)]

/-- What stands between the braces. -/
def inside (x : StructText) : Text := x.fields.flatMap (fun f => f.text ++ [';']) ++ x.inner

def text (x : StructText) : Text :=
  spaced x.words ++ '{' :: (x.inside ++ '}' :: (x.between ++ [';']))

end StructText

/-- A macro without parameters.  Where its text goes on in the next line there is a backslash in
front of the line end. -/
structure MacroText where
  gap : Text
  name : Text
  gap' : Text
  content : Text
  isLineGap : IsLineGap gap
  isIdentifier_name : IsIdentifier name
  isLineGap' : IsLineGap gap'
  content_ne : content ≠ []
  isBlank_last : ∀ c ∈ content.getLast?, isBlank c = false
  opening_not_mem : '{' ∉ content
  closing_not_mem : '}' ∉ content
  semicolon_not_mem : ';' ∉ content
  continued : ∀ y z, content = y ++ '\n' :: z → y.getLast? = some '\\'

def MacroText.text (x : MacroText) : Text :=
  "#define".toList ++ (x.gap ++ (x.name ++ (x.gap' ++ x.content)))

/-- A declaration as it is written. -/
inductive Item where
  | function (x : FunctionText)
  | global (x : GlobalText)
  | uniform (x : UniformText)
  | struct (x : StructText)
  | define (x : MacroText)

namespace Item

def kind : Item → Kind
  | function _ => .function
  | global _ => .global
  | uniform _ => .uniform
  | struct _ => .struct
  | define _ => .define

/-- The name that is declared. -/
def name : Item → Text
  | function x => x.name
  | global x => x.toLayout.name.word
  | uniform x => x.toLayout.name.word
  | struct x => x.name
  | define x => x.name

def text : Item → Text
  | function x => x.text
  | global x => x.toLayout.text
  | uniform x => x.toLayout.text
  | struct x => x.text
  | define x => x.text

/-! ## What the forms provide for -/

/-- The forms know no precision in front of functions and global variables, and no macros that go on
in the next line. -/
def Supported : Item → Prop
  | function x => x.precision = []
  | global x => x.keywords.map Prod.fst ∈ Kind.global.openings
  | define x => '\n' ∉ x.content
  | _ => True

end Item

/-- Nothing in the text can be the beginning of a function or of a uniform: a parenthesis that opens
is closed again, and behind the keyword is no blank and no end. -/
structure Tame (t : Text) : Prop where
  closed : ∀ y z, t = y ++ '(' :: z → ')' ∈ z
  uniform : ∀ y z, t = y ++ ("uniform".toList ++ z) → ∃ c ∈ z.head?, isBlank c = false

/-- Nothing in the macro, with what follows it, can be the beginning of a global variable either. -/
structure MacroText.Tame (x : MacroText) : Prop extends ShaderLink.Tame x.text where
  global : ∀ y ps z, x.text = y ++ (spaced ps ++ '=' :: z) → Spaced ps → ps.length ≤ 1
  const : ¬ "const".toList <:+ x.text

/-- Nothing in a value or in a macro can be the beginning of another declaration. -/
def Item.Tame : Item → Prop
  | .global x => ShaderLink.Tame x.init
  | .define x => x.Tame
  | _ => True

/-- The forms take the declaration as a whole, wherever it stands. -/
structure Item.Regular (i : Item) : Prop where
  supported : i.Supported
  tame : i.Tame

/-! ## Modules -/

/-- A declaration of a module, and whether it is still there. -/
abbrev Slot := Item × Bool

/-- The declaration, or the blanks that were left in its place. -/
def Slot.shown (e : Slot) : Text :=
  if e.2 = true then e.1.text else List.replicate e.1.text.length ' '

/-- The code of a module, one declaration behind the other on lines of their own. -/
def sourceOf (es : List Slot) : Text := Text.join ['\n'] (es.map Slot.shown)

end ShaderLink
