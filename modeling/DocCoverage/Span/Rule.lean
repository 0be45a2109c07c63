import DocCoverage.Span.Kind
import DocCoverage.Text.CharClass

/-!
# Rules for opening and closing spans

Every kind of span has one rule. A span opens at a character when the character before it, the
character itself and the text behind it all agree with the rule; the rule also says how the span
closes and which kinds may open inside it. Where several kinds could open at one character, the
first of `SpanKind.priority` wins.
-/
namespace DocCoverage

/-- How a span recognises its end. -/
inductive End where
  /-- It runs to the end of the file. -/
  | eof
  /-- It closes where the text ahead is accepted. An `unescaped` end does not close behind an odd
  run of backslashes. -/
  | ahead (accepts : Text → Bool) (unescaped : Bool)
  /-- It closes at a line feed in front of a line that is indented no deeper than the line it
  opened on, unless that line is empty or a comment. -/
  | dedent
  /-- It closes right behind the decorated definition. Until then it closes like `dedent`, except
  in front of a line that starts with `d`, `a` or `@`. -/
  | decorated

/-- One row of the table. -/
structure Rule where
  before : Char → Bool
  current : Char → Bool
  ahead : Text → Bool
  ending : End
  /-- Bytes of the opening delimiter, given the text from the opening character on. -/
  opener : Text → Nat
  /-- Bytes behind the end position that still belong to the span. -/
  trailing : Nat
  /-- Bytes behind the end position at which the enclosing span resumes. -/
  resume : Int
  /-- Running into the end of the file leaves the span unterminated. -/
  mustClose : Bool
  /-- The span opens only on the first token of a line. -/
  lineHead : Bool
  children : List SpanKind

namespace Rule

def any (_ : Char) : Bool := true

def none (_ : Char) : Bool := false

def only (c d : Char) : Bool := d == c

/-- A line feed or a space. -/
def lineStart (c : Char) : Bool := c == '\n' || c == ' '

/-- A character outside words. -/
def nonWord (c : Char) : Bool := !Text.isWord c

/-- The text starts with a character of a class. -/
def starts (p : Char → Bool) : Text → Bool
  | [] => false
  | c :: _ => p c

/-- Any text, the empty one included. -/
def anything (_ : Text) : Bool := true

def word (w t : Text) : Bool := Text.startsWith t w

def skipSpaces (t : Text) : Text := t.dropWhile (· == ' ')

/-- A statement keyword is followed by spaces and something other than a line end, a comment or a
semicolon, or directly by one of the given characters. -/
def operand (direct : List Char) (keyword t : Text) : Bool :=
  match Text.dropPrefix? keyword t with
  | .none => false
  | some [] => false
  | some (c :: rest) =>
    if c == ' ' then
      starts (fun d => !(d == '\n' || d == '#' || d == ';')) (skipSpaces rest)
    else direct.contains c

/-- Behind a decorator that marks the definition below it: spaces, then a comment, a line end or
the end of the file. -/
def markEnds (t : Text) : Bool :=
  match skipSpaces t with
  | [] => true
  | c :: _ => c == '#' || c == '\n'

/-- The two decorators that change how the definition below is read. -/
def marker (t : Text) : Bool :=
  match Text.dropPrefix? "property" t with
  | some rest => markEnds rest
  | .none =>
    match Text.dropPrefix? "classmethod" t with
    | some rest => markEnds rest
    | .none => false

/-- A dotted name, then spaces and a bracket, a line feed or a comment. -/
def decoratorCall : Text → Bool
  | [] => false
  | c :: t =>
    (Text.isAsciiLetter c || c == '_') &&
      starts (fun d => d == '(' || d == '\n' || d == '#')
        (skipSpaces (t.dropWhile fun d => Text.isWord d || d == '.'))

/-- An equals sign that is not the first of two. -/
def assigns : Text → Bool
  | '=' :: '=' :: _ => false
  | '=' :: _ => true
  | _ => false

/-- The rest of a name, an optional annotation and an assignment. -/
def assignment (t : Text) : Bool :=
  match skipSpaces (t.dropWhile Text.isWord) with
  | ':' :: rest => assigns (rest.dropWhile fun d => !(d == '=' || d == '\n'))
  | rest => assigns rest

/-- A line feed, a comment or a semicolon. -/
def statementEnd (c : Char) : Bool := c == '\n' || c == '#' || c == ';'

/-- The spans that may open inside brackets. -/
def codeChildren : List SpanKind :=
  [.bracket, .straightBracket, .curvedBracket, .formattedSingleString, .formattedDoubleString,
   .singleString, .doubleString, .singleDocstring, .doubleDocstring, .comment, .selfAttribute]

def fileChildren : List SpanKind :=
  [.bracket, .straightBracket, .curvedBracket, .formattedSingleString, .formattedDoubleString,
   .singleString, .doubleString, .singleDocstring, .doubleDocstring, .comment, .function,
   .classDef, .decoratorArgument]

def callableChildren : List SpanKind :=
  fileChildren ++ [.selfAttribute, .returnStmt, .raiseStmt, .yieldStmt]

def classChildren : List SpanKind :=
  [.bracket, .straightBracket, .curvedBracket, .formattedSingleString, .formattedDoubleString,
   .singleString, .doubleString, .singleDocstring, .doubleDocstring, .comment, .classDef, .method,
   .decorator, .decoratorArgument, .selfAttribute, .classAttribute]

def decoratorChildren : List SpanKind := [.method, .comment, .decoratorArgument]

def decoratorArgumentChildren : List SpanKind :=
  [.bracket, .straightBracket, .curvedBracket, .formattedSingleString, .formattedDoubleString,
   .singleString, .doubleString, .comment]

def statementChildren : List SpanKind :=
  [.bracket, .straightBracket, .curvedBracket, .formattedSingleString, .formattedDoubleString,
   .singleString, .doubleString, .singleDocstring, .doubleDocstring, .selfAttribute]

def brackets (opening closing : Char) (resume : Int) : Rule where
  before := any
  current := only opening
  ahead := anything
  ending := .ahead (starts (only closing)) true
  opener _ := 1
  trailing := 1
  resume := resume
  mustClose := true
  lineHead := false
  children := codeChildren

/-- A string between two single quote characters of one sort. An empty string never opens. -/
def quoted (before : Char → Bool) (quote : Char) (children : List SpanKind) : Rule where
  before := before
  current := only quote
  ahead := starts (fun d => !(d == quote))
  ending := .ahead (starts (only quote)) true
  opener _ := 1
  trailing := 1
  resume := 1
  mustClose := true
  lineHead := false
  children := children

def tripleQuoted (quote : Char) : Rule where
  before c := !(c == '\\')
  current := only quote
  ahead := word [quote, quote]
  ending := .ahead (word [quote, quote, quote]) true
  opener _ := 3
  trailing := 3
  resume := 3
  mustClose := true
  lineHead := false
  children := []

/-- A definition by keyword, which lasts until the indentation falls back. -/
def definition (first : Char) (keyword : Text) (resume : Int) (children : List SpanKind) :
    Rule where
  before := lineStart
  current := only first
  ahead := word keyword
  ending := .dedent
  opener _ := 1
  trailing := 0
  resume := resume
  mustClose := false
  lineHead := false
  children := children

/-- A statement with an operand. -/
def statement (first : Char) (ahead : Text → Bool) : Rule where
  before := nonWord
  current := only first
  ahead := ahead
  ending := .ahead (starts statementEnd) false
  opener _ := 1
  trailing := 0
  resume := 0
  mustClose := false
  lineHead := false
  children := statementChildren

def comment : Rule where
  before := any
  current := only '#'
  ahead := anything
  ending := .ahead (starts (only '\n')) true
  opener _ := 1
  trailing := 0
  resume := 0
  mustClose := false
  lineHead := false
  children := []

def decorator : Rule where
  before := lineStart
  current := only '@'
  ahead := marker
  ending := .decorated
  opener _ := 1
  trailing := 0
  resume := 0
  mustClose := false
  lineHead := false
  children := decoratorChildren

def decoratorArgument : Rule where
  before := lineStart
  current := only '@'
  ahead := decoratorCall
  ending := .ahead (starts (only '\n')) false
  opener _ := 1
  trailing := 0
  resume := 0
  mustClose := false
  lineHead := false
  children := decoratorArgumentChildren

def selfAttribute : Rule where
  before := nonWord
  current := only 's'
  ahead := word "elf."
  ending := .ahead (starts fun d => !(d == '.') && nonWord d) false
  opener _ := 1
  trailing := 0
  resume := 0
  mustClose := false
  lineHead := false
  children := []

/-- An assignment at the head of a line of a class body. Its opener is one byte, also where the
first character of the name is longer. -/
def classAttribute : Rule where
  before := nonWord
  current := Text.isWord
  ahead := assignment
  ending := .ahead (starts nonWord) false
  opener _ := 1
  trailing := 0
  resume := 0
  mustClose := false
  lineHead := true
  children := []

/-- The whole file; it never opens inside another span. -/
def file : Rule where
  before := none
  current := none
  ahead _ := false
  ending := .eof
  opener _ := 0
  trailing := 0
  resume := 0
  mustClose := false
  lineHead := false
  children := fileChildren

/-- The characters that may follow `return` and `yield` without a space. -/
def directOperands : List Char := ['(', '[', '\x7b', '\'', '"']

def standard : SpanKind → Rule
  | .bracket => brackets '(' ')' 1
  | .straightBracket => brackets '[' ']' 1
  | .curvedBracket => brackets '\x7b' '\x7d' 0
  | .formattedSingleString => quoted (fun c => c == 'f' || c == 'F') '\'' [.curvedBracket]
  | .formattedDoubleString => quoted (fun c => c == 'f' || c == 'F') '"' [.curvedBracket]
  | .singleString => quoted (fun c => !(c == '\\' || c == '\'')) '\'' []
  | .doubleString => quoted (fun c => !(c == '\\' || c == '"')) '"' []
  | .singleDocstring => tripleQuoted '\''
  | .doubleDocstring => tripleQuoted '"'
  | .comment => comment
  | .function => definition 'd' "ef " 0 callableChildren
  | .method => definition 'd' "ef " (-1) callableChildren
  | .classMethod => definition 'd' "ef " (-1) callableChildren
  | .classDef => definition 'c' "lass " 0 classChildren
  | .decorator => decorator
  | .decoratorArgument => decoratorArgument
  | .selfAttribute => selfAttribute
  | .classAttribute => classAttribute
  | .returnStmt => statement 'r' (operand directOperands "eturn")
  | .raiseStmt => statement 'r' (operand ['('] "aise")
  | .yieldStmt => statement 'y' (operand directOperands "ield")
  | .file => file

end Rule

/-- The order in which kinds are tried at a character. -/
def SpanKind.priority : List SpanKind :=
  [.bracket, .straightBracket, .curvedBracket, .formattedSingleString, .formattedDoubleString,
   .singleString, .doubleString, .singleDocstring, .doubleDocstring, .comment, .function, .method,
   .classMethod, .classDef, .decorator, .decoratorArgument, .selfAttribute, .classAttribute,
   .returnStmt, .raiseStmt, .yieldStmt, .file]

end DocCoverage
