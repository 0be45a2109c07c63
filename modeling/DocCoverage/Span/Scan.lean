import DocCoverage.Span.Basic
import DocCoverage.Span.Rule

/-!
# Scanning a file into spans

Each span reads the text from its opening character on. At every character outside its children
it first asks whether a child opens there, then whether it ends there itself, and otherwise steps
forward, keeping the indentation of the current line. A child runs its own scan, one level
deeper; the nesting depth is bounded, so the recursion is on the levels that are left and, inside
one span, on the text.
-/
namespace DocCoverage

inductive ScanError where
  /-- A span opened deeper than the limit. -/
  | depthExceeded (limit offset : Nat)
  /-- The time for the scan was over. -/
  | deadlineExceeded (offset : Nat)
  /-- The opener of a span ends inside a character. -/
  | openerSplitsCharacter (offset : Nat)
  deriving DecidableEq, Repr

def ScanError.message : ScanError → Text
  | .depthExceeded limit offset =>
    "nesting deeper than " ++ Text.ofNat limit ++ " spans at byte " ++ Text.ofNat offset
  | .deadlineExceeded offset => "deadline exceeded at byte " ++ Text.ofNat offset
  | .openerSplitsCharacter offset => "opener splits the character at byte " ++ Text.ofNat offset

structure ScanOptions where
  /-- The deepest level at which a span may open; the file is level 0. -/
  maxDepth : Nat := 256
  /-- Whether the deadline is over when the scan looks at the clock at a byte offset. -/
  expired : Nat → Bool := fun _ => false

/-- The scan never finds its deadline over. -/
def ScanOptions.Untimed (options : ScanOptions) : Prop :=
  ∀ offset, options.expired offset = false

/-- The same limits without a deadline. -/
def ScanOptions.untimed (options : ScanOptions) : ScanOptions where
  maxDepth := options.maxDepth

/-- A place inside a span: the characters of the span before it, nearest first, and the text of
the file from it on. -/
structure Cursor where
  back : Text
  ahead : Text

namespace Cursor

/-- The character before the cursor; a span starts as if behind a line feed. -/
def before (cur : Cursor) : Char := cur.back.headD '\n'

/-- Only spaces stand between the cursor and the start of its line or span. -/
def atLineHead (cur : Cursor) : Bool := (cur.back.takeWhile (· != '\n')).all (· == ' ')

/-- The cursor stands behind an odd run of backslashes. -/
def escaped (cur : Cursor) : Bool := (cur.back.takeWhile (· == '\\')).length % 2 == 1

end Cursor

def leadingSpaces (t : Text) : Nat := (t.takeWhile (· == ' ')).length

/-- The text is a line feed in front of a line, neither empty nor a comment, that is indented by
at most `indent` spaces and does not start with an exempt character. -/
def dedents (indent : Nat) (exempt : List Char) : Text → Bool
  | '\n' :: t =>
    leadingSpaces t ≤ indent &&
      match t.dropWhile (· == ' ') with
      | [] => false
      | c :: _ => !(c == '\n' || c == '#') && !exempt.contains c
  | _ => false

/-- A span that opened on a line of the given indentation ends at the cursor. -/
def End.closes (e : End) (indent : Nat) (cur : Cursor) : Bool :=
  match e with
  | .eof => false
  | .ahead accepts unescaped => !(unescaped && cur.escaped) && accepts cur.ahead
  | .dedent => dedents indent [] cur.ahead
  | .decorated => dedents indent ['d', 'a', '@'] cur.ahead

/-- The end comes right behind a definition. -/
def End.isDecorated : End → Bool
  | .decorated => true
  | _ => false

/-- The rule lets its kind open at the cursor. -/
def Rule.opens (r : Rule) (cur : Cursor) : Bool :=
  match cur.ahead with
  | [] => false
  | c :: t => r.current c && r.before cur.before && r.ahead t && (!r.lineHead || cur.atLineHead)

/-- The rules that a scan follows. -/
abbrev RuleTable := SpanKind → Rule

/-- The kind that opens at the cursor inside a span that follows `parent`. -/
def RuleTable.dispatch (table : RuleTable) (parent : Rule) (cur : Cursor) : Option SpanKind :=
  SpanKind.priority.find? fun k => parent.children.contains k && (table k).opens cur

/-- A method under `@classmethod` is a classmethod. -/
def SpanKind.refine (parent : SpanKind) (parentText : Text) (child : SpanKind) : SpanKind :=
  if parent == .decorator && child == .method && Text.startsWith parentText "@classmethod" then
    .classMethod
  else child

/-- A finished span and the number of bytes, from its start, after which the enclosing span
resumes. -/
structure Scanned where
  span : Span
  consumed : Nat

/-- What a span knows when it opens. -/
structure Opening where
  kind : SpanKind
  start : Nat
  indent : Nat
  /-- The text of the file from `start` on. -/
  text : Text

namespace Opening

def close (o : Opening) (stop : Nat) (unterminated : Bool) (children : List Span) : Span where
  kind := o.kind
  text := Text.slice o.text 0 (stop - o.start)
  start := o.start
  stop := stop
  indent := o.indent
  unterminated := unterminated
  children := children

end Opening

/-- Where a span stands in its own text. -/
structure Progress where
  /-- The characters of the span already passed, nearest first. -/
  back : Text
  /-- Absolute offset of the cursor. -/
  pos : Nat
  /-- Indentation of the current line. -/
  lineIndent : Nat
  /-- Absolute offset at which the last child hands back. -/
  resumeAt : Nat
  /-- The finished children, last first. -/
  children : List Span

/-- One character further, with the line's indentation kept up to date. -/
def Progress.step (p : Progress) (c : Char) (rest : Text) : Progress :=
  { p with
    back := c :: p.back
    pos := p.pos + c.utf8Size
    lineIndent := if c == '\n' then leadingSpaces rest else p.lineIndent }

/-- One character further inside a child. -/
def Progress.skip (p : Progress) (c : Char) : Progress :=
  { p with back := c :: p.back, pos := p.pos + c.utf8Size }

/-- Read the rest of a span's text, with `child` to scan the spans that open in it. The clock is
looked at before every line feed that is stepped over. -/
def scanBody (table : RuleTable) (expired : Nat → Bool)
    (child : Opening → Except ScanError Scanned) (o : Opening) :
    Progress → Text → Except ScanError Scanned
  | p, [] =>
    .ok ⟨o.close p.pos (table o.kind).mustClose p.children.reverse, p.pos - o.start⟩
  | p, c :: rest =>
    if p.pos < p.resumeAt then scanBody table expired child o (p.skip c) rest
    else
      match table.dispatch (table o.kind) ⟨p.back, c :: rest⟩ with
      | some kind =>
        match child ⟨o.kind.refine o.text kind, p.pos, p.lineIndent, c :: rest⟩ with
        | .error e => .error e
        | .ok ⟨s, consumed⟩ =>
          let resumeAt := max (p.pos + max consumed 1) s.stop
          if s.kind.isDefinition && (table o.kind).ending.isDecorated then
            .ok ⟨o.close resumeAt false (s :: p.children).reverse, resumeAt - o.start⟩
          else
            scanBody table expired child o
              { p.skip c with resumeAt := resumeAt, children := s :: p.children } rest
      | none =>
        if (table o.kind).ending.closes o.indent ⟨p.back, c :: rest⟩ then
          let trailing := min (table o.kind).trailing (Text.byteLength (c :: rest))
          .ok ⟨o.close (p.pos + trailing) false p.children.reverse,
            ((p.pos - o.start : Nat) + (table o.kind).resume).toNat⟩
        else if c == '\n' && expired p.pos then .error (.deadlineExceeded p.pos)
        else scanBody table expired child o (p.step c rest) rest

/-- Scan one span, with `levels` nesting levels left for it and what opens in it. -/
def scanSpan (table : RuleTable) (options : ScanOptions) :
    (levels : Nat) → Opening → Except ScanError Scanned
  | 0, o => .error (.depthExceeded options.maxDepth o.start)
  | levels + 1, o =>
    if options.expired o.start then .error (.deadlineExceeded o.start)
    else
      let opener := min ((table o.kind).opener o.text) (Text.byteLength o.text)
      match Text.splitAt? opener o.text with
      | none => .error (.openerSplitsCharacter o.start)
      | some (opened, rest) =>
        scanBody table options.expired (scanSpan table options levels) o
          ⟨opened.reverse, o.start + opener, o.indent, 0, []⟩ rest

def RuleTable.scan (table : RuleTable) (options : ScanOptions) (source : Text) :
    Except ScanError Span :=
  match scanSpan table options (options.maxDepth + 1) ⟨.file, 0, 0, source⟩ with
  | .ok r => .ok r.span
  | .error e => .error e

/-- Scan a file into its span tree. -/
def scan (options : ScanOptions) (source : Text) : Except ScanError Span :=
  RuleTable.scan Rule.standard options source

end DocCoverage
