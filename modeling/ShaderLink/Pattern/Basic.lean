import ShaderLink.Text.Blank
import ShaderLink.Text.Word

/-!
# Patterns

A pattern describes pieces of text.  It is matched by trying alternatives in a fixed order and
going back to the last one that is left when a later part fails; the first success counts.
`Pattern.run` does this with the rest of the match as a continuation.  Runs of single characters
have a case of their own (`chars`), since all places where such a run can end are known at once.
-/

namespace ShaderLink

/-- A description of pieces of text; of two alternatives the one to try first stands first. -/
inductive Pattern where
  /-- Matches without consuming anything. -/
  | empty
  /-- One character that passes the test. -/
  | one (test : Char → Bool)
  /-- Any number of characters that pass the test, as many as possible first. -/
  | chars (test : Char → Bool)
  /-- The one after the other. -/
  | seq (p q : Pattern)
  /-- The first, or else the second. -/
  | either (p q : Pattern)
  /-- Any number of rounds, as many as possible first if greedy, as few as possible first if not. -/
  | star (greedy : Bool) (p : Pattern)
  /-- Remembers the text matched by the part under a number. -/
  | group (n : Nat) (p : Pattern)
  /-- The text remembered under a number, once more. -/
  | again (n : Nat)
  /-- The beginning of the text. -/
  | textStart
  /-- The beginning of the text or of a line. -/
  | lineStart
  /-- The end of the text, or the place before a single last line end. -/
  | textEnd
  /-- The end of the text or of a line. -/
  | lineEnd
  /-- A place with a word character on exactly one side. -/
  | wordEdge
  /-- A place where the part does not match. -/
  | notAhead (p : Pattern)

/-- A span of a text: what follows its beginning, and how long it is. -/
structure Span where
  rest : Text
  length : Nat

/-- The text of a span. -/
def Span.text (s : Span) : Text := s.rest.take s.length

/-- A place in a text: the character before it, what follows, how long that is, and the spans
remembered so far, the latest first. -/
structure Cursor where
  before : Option Char
  rest : Text
  left : Nat
  groups : List (Nat × Span)

namespace Cursor

/-- The cursor behind the next character. -/
def next (k : Cursor) (c : Char) (t : Text) : Cursor :=
  { k with before := some c, rest := t, left := k.left - 1 }

/-- The span between a cursor and a later one. -/
def upTo (k k' : Cursor) : Span := ⟨k.rest, k.left - k'.left⟩

/-- The text remembered under a number. -/
def group? (k : Cursor) (n : Nat) : Option Text := (k.groups.lookup n).map Span.text

/-- Remembers a span under a number. -/
def remember (k : Cursor) (n : Nat) (s : Span) : Cursor :=
  { k with groups := (n, s) :: k.groups }

/-- Walks past a given text, if it comes next. -/
def past : Text → Cursor → Option Cursor
  | [], k => some k
  | c :: t, k =>
    match k.rest with
    | [] => none
    | d :: r => if c = d then past t (k.next d r) else none

/-- The cursors from one on as far as characters pass the test, the last first, in front of
others; `rest` is what follows the first of them. -/
def stops (test : Char → Bool) : (rest : Text) → Cursor → List Cursor → List Cursor
  | [], k, ks => k :: ks
  | c :: t, k, ks => if test c then stops test t (k.next c t) (k :: ks) else k :: ks

def atTextStart (k : Cursor) : Bool := k.before.isNone

def atLineStart (k : Cursor) : Bool :=
  match k.before with
  | none => true
  | some c => c == '\n'

def atTextEnd (k : Cursor) : Bool :=
  match k.rest with
  | [] => true
  | [c] => c == '\n'
  | _ => false

def atLineEnd (k : Cursor) : Bool :=
  match k.rest with
  | [] => true
  | c :: _ => c == '\n'

def atWordEdge (k : Cursor) : Bool :=
  k.before.any Text.isWord != k.rest.head?.any Text.isWord

end Cursor

namespace Pattern

/-! ## Building patterns -/

instance : Append Pattern := ⟨seq⟩

/-- One given character. -/
def lit (c : Char) : Pattern := one (· == c)

/-- A given text. -/
def exactly (t : Text) : Pattern := t.foldr (fun c p => seq (lit c) p) empty

/-- A given word or phrase. -/
def phrase (s : String) : Pattern := exactly s.toList

/-- The character is in the list. -/
def isAmong (c : Char) : List Char → Bool
  | [] => false
  | d :: ds => c == d || isAmong c ds

/-- One of the given characters. -/
def oneOf (s : String) : Pattern :=
  let listed := s.toList
  one fun c => isAmong c listed

/-- One character, but none of the given ones. -/
def noneOf (s : String) : Pattern :=
  let listed := s.toList
  one fun c => !isAmong c listed

/-- A word character. -/
def letter : Pattern := one Text.isWord

/-- A blank. -/
def blank : Pattern := one Text.isBlank

/-- Any character at all. -/
def anything : Pattern := one fun _ => true

/-- As many rounds as possible. -/
def many : Pattern → Pattern
  | one test => chars test
  | p => star true p

/-- As many rounds as possible, but at least one. -/
def many1 (p : Pattern) : Pattern := p ++ many p

/-- As few rounds as possible. -/
def few (p : Pattern) : Pattern := star false p

/-- As few rounds as possible, but at least one. -/
def few1 (p : Pattern) : Pattern := p ++ star false p

/-- The part if possible. -/
def optional (p : Pattern) : Pattern := either p empty

/-- A run of word characters. -/
def identifier : Pattern := many1 letter

/-- Blanks, or nothing. -/
def blanks : Pattern := many blank

/-- At least one blank. -/
def gap : Pattern := many1 blank

/-- The largest number under which the pattern remembers a text. -/
def groupCount : Pattern → Nat
  | seq p q | either p q => max p.groupCount q.groupCount
  | star _ p | notAhead p => p.groupCount
  | group n p => max n p.groupCount
  | _ => 0

/-! ## Matching -/

/-- Rounds of a step, at most `fuel` of them; a round has to move on. -/
def rounds (step : Cursor → (Cursor → Option Cursor) → Option Cursor) (greedy : Bool) :
    (fuel : Nat) → Cursor → (Cursor → Option Cursor) → Option Cursor
  | 0, k, done => done k
  | fuel + 1, k, done =>
    let more := fun (_ : Unit) => step k fun k' =>
      if k'.left < k.left then rounds step greedy fuel k' done else none
    if greedy then (more ()).orElse fun _ => done k else (done k).orElse more

/-- Matches from a cursor on and hands each way of doing so to the continuation, until that
accepts one. -/
def run : Pattern → Cursor → (Cursor → Option Cursor) → Option Cursor
  | empty, k, done => done k
  | one test, k, done =>
    match k.rest with
    | [] => none
    | c :: t => if test c then done (k.next c t) else none
  | chars test, k, done => (k.stops test k.rest []).findSome? done
  | seq p q, k, done => p.run k fun k' => q.run k' done
  | either p q, k, done => (p.run k done).orElse fun _ => q.run k done
  | star greedy p, k, done => rounds p.run greedy k.left k done
  | group n p, k, done => p.run k fun k' => done (k'.remember n (k.upTo k'))
  | again n, k, done => ((k.group? n).bind fun t => k.past t).bind done
  | textStart, k, done => if k.atTextStart then done k else none
  | lineStart, k, done => if k.atLineStart then done k else none
  | textEnd, k, done => if k.atTextEnd then done k else none
  | lineEnd, k, done => if k.atLineEnd then done k else none
  | wordEdge, k, done => if k.atWordEdge then done k else none
  | notAhead p, k, done => if (p.run k some).isNone then done k else none

end Pattern

end ShaderLink
