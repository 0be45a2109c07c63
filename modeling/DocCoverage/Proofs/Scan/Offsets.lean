import DocCoverage.Proofs.Scan.Openers
import DocCoverage.Proofs.Scan.Runs

/-!
# Scanning by byte offsets

The same scan can be run on byte offsets alone: a span is the rest of the source from an offset, a
place in it is a number of bytes, and every look at the text is a cut of the source at an offset
that was computed. Blanks behind a line feed and the text of a child are jumped over. Such a scan
breaks off, without an answer, at the first offset that is no cut. For the standard rules the only
offset that can fail is the end of an opener, so that the scan by offsets breaks off exactly where
the scan by characters reports a split character, and agrees with it otherwise.
-/
namespace DocCoverage

/-- The answer of a scan by offsets; there is none if it cut the source inside a character, beyond
its end or backwards. -/
abbrev Checked (α : Type) := Option (Except ScanError α)

/-- An answer in which a split character counts as breaking off. -/
def Checked.ofScan {α : Type} : Except ScanError α → Checked α
  | .error (.openerSplitsCharacter _) => none
  | r => some r

namespace Offsets

/-- Where a span stands in its text, in bytes behind its start. -/
structure Place where
  cursor : Nat
  /-- The end of the last child. -/
  covered : Nat
  lineIndent : Nat
  /-- The finished children, last first. -/
  children : List Span

/-- One character further, or to the first character of the next line that is no space. -/
def Place.step (q : Place) (cur : Cursor) : Place :=
  match cur.ahead with
  | [] => { q with cursor := q.cursor + 1 }
  | c :: rest =>
    if c == '\n' then
      { q with cursor := q.cursor + 1 + leadingSpaces rest, lineIndent := leadingSpaces rest }
    else { q with cursor := q.cursor + c.utf8Size }

theorem Place.cursor_lt_step (q : Place) (cur : Cursor) : q.cursor < (q.step cur).cursor := by
  obtain ⟨back, ahead⟩ := cur
  cases ahead with
  | nil => exact Nat.lt_succ_self _
  | cons c rest =>
    have hsize := c.utf8Size_pos
    simp only [step]
    split
    · simp only
      omega
    · simp only
      omega

/-- Cut a finished span out of the source. -/
def seal? (source : Text) (o : Opening) (stop : Nat) (unterminated : Bool) (children : List Span)
    (consumed : Nat) : Checked Scanned :=
  (Text.slice? source o.start (o.start + stop)).map fun t =>
    .ok ⟨⟨o.kind, t, o.start, o.start + stop, o.indent, unterminated, children.reverse⟩, consumed⟩

/-- Read a span from a place on, with `child` to scan a span of a kind from an offset of the source
and with an indentation. -/
def body (table : RuleTable) (expired : Nat → Bool) (source : Text)
    (child : SpanKind → Nat → Nat → Checked Scanned) (o : Opening) (q : Place) : Checked Scanned :=
  if q.cursor < Text.byteLength o.text then
    if q.cursor < q.covered then body table expired source child o { q with cursor := q.covered }
    else
      match Cursor.at? o.text q.cursor with
      | none => none
      | some cur =>
        match table.dispatch (table o.kind) cur with
        | some kind =>
          match child (o.kind.refine o.text kind) (o.start + q.cursor) q.lineIndent with
          | none => none
          | some (.error e) => some (.error e)
          | some (.ok r) =>
            -- the end of the child is counted from the start of the span
            if r.span.stop < o.start then none
            else
              let cursor := q.cursor + max r.consumed 1
              let covered := r.span.stop - o.start
              if r.span.kind.isDefinition && (table o.kind).ending.isDecorated then
                seal? source o (max cursor covered) false (r.span :: q.children)
                  (max cursor covered)
              else
                body table expired source child o
                  ⟨cursor, covered, q.lineIndent, r.span :: q.children⟩
        | none =>
          if (table o.kind).ending.closes o.indent cur then
            seal? source o
              (max (min (q.cursor + (table o.kind).trailing) (Text.byteLength o.text)) q.covered)
              false q.children ((q.cursor : Int) + (table o.kind).resume).toNat
          else if cur.ahead.head? == some '\n' && expired (o.start + q.cursor) then
            some (.error (.deadlineExceeded (o.start + q.cursor)))
          else body table expired source child o (q.step cur)
  else
    seal? source o (Text.byteLength o.text) (table o.kind).mustClose q.children
      (Text.byteLength o.text)
termination_by Text.byteLength o.text - q.cursor
decreasing_by
  · omega
  · omega
  · have := q.cursor_lt_step cur
    omega

/-- Scan a span of a kind from an offset of the source, with `levels` nesting levels left. -/
def span (table : RuleTable) (options : ScanOptions) (source : Text) :
    (levels : Nat) → (kind : SpanKind) → (start indent : Nat) → Checked Scanned
  | 0, _, start, _ => some (.error (.depthExceeded options.maxDepth start))
  | levels + 1, kind, start, indent =>
    if options.expired start then some (.error (.deadlineExceeded start))
    else
      match Text.splitAt? start source with
      | none => none
      | some (_, text) =>
        body table options.expired source (span table options source levels)
          ⟨kind, start, indent, text⟩
          ⟨min ((table kind).opener text) (Text.byteLength text), 0, indent, []⟩

/-- Scan a file by offsets. -/
def scan? (table : RuleTable) (options : ScanOptions) (source : Text) : Checked Span :=
  (span table options source (options.maxDepth + 1) .file 0 0).map (·.map Scanned.span)

end Offsets

/-- Blanks behind a line feed at which a span goes on mean nothing to it. -/
structure RuleTable.PassesBlanks (table : RuleTable) : Prop where
  idle : ∀ k back t, table.dispatch (table k) ⟨back, ' ' :: t⟩ = none
  stays : ∀ k indent back t back' t', (table k).ending.closes indent ⟨back, '\n' :: t⟩ = false →
    (table k).ending.closes indent ⟨back', ' ' :: t'⟩ = false

namespace Rule

/-- A name ends at every character outside words, so at the line feed already. -/
theorem standard_stays (k : SpanKind) (indent : Nat) (back t back' t' : Text)
    (h : (standard k).ending.closes indent ⟨back, '\n' :: t⟩ = false) :
    (standard k).ending.closes indent ⟨back', ' ' :: t'⟩ = false := by
  cases k with
  | selfAttribute | classAttribute => cases h
  | file | classDef | function | method | classMethod | decorator => rfl
  | _ => exact End.closes_eq_false rfl

theorem standard_passesBlanks : RuleTable.PassesBlanks standard where
  idle k back t := RuleTable.dispatch_of_dull (by cases k <;> decide) back t
  stays := standard_stays

end Rule

section

variable {table : RuleTable} {expired : Nat → Bool} {child : Opening → Except ScanError Scanned}
  {o : Opening} {p : Progress} {u v : Text}

theorem scanBody_skips (h : p.pos + Text.byteLength u = p.resumeAt) :
    scanBody table expired child o p (u ++ v) = scanBody table expired child o (p.past u) v := by
  induction u generalizing p with
  | nil => rfl
  | cons c u ih =>
    have hsize := c.utf8Size_pos
    rw [Text.byteLength_cons] at h
    rw [List.cons_append, scanBody, if_pos (by omega), Progress.past_cons]
    exact ih (by simp only [Progress.skip]; omega)

/-- Blanks at which nothing happens are passed over, and the indentation of the line stays. -/
theorem scanBody_blanks (houtside : ¬ p.pos < p.resumeAt) (hu : ∀ c ∈ u, c = ' ')
    (hquiet : ∀ back t, table.Quiet o.kind o.indent ⟨back, ' ' :: t⟩) :
    scanBody table expired child o p (u ++ v) = scanBody table expired child o (p.past u) v := by
  induction u generalizing p with
  | nil => rfl
  | cons c u ih =>
    obtain rfl : c = ' ' := hu c List.mem_cons_self
    have hq := hquiet p.back (u ++ v)
    have hstep : p.step ' ' (u ++ v) = p.skip ' ' := rfl
    rw [List.cons_append, scanBody, if_neg houtside]
    simp only [hq.1, hq.2, hstep, Progress.past_cons, Bool.false_eq_true, if_false,
      show ((' ' : Char) == '\n') = false from rfl, Bool.false_and]
    refine ih ?_ fun d hd => hu d (List.mem_cons_of_mem _ hd)
    simp only [Progress.skip]
    omega

end

namespace Offsets

/-- The two scans of a span stand at one place. -/
structure Stands (o : Opening) (p : Progress) (rest : Text) (q : Place) : Prop where
  text_eq : o.text = p.back.reverse ++ rest
  pos_eq : p.pos = o.start + Text.byteLength p.back
  outside : ¬ p.pos < p.resumeAt
  cursor_eq : q.cursor = Text.byteLength p.back
  covered_le : q.covered ≤ q.cursor
  indent_eq : q.lineIndent = p.lineIndent
  children_eq : q.children = p.children

section

variable {table : RuleTable} {expired : Nat → Bool} {source front : Text} {o : Opening}
  {p : Progress} {q : Place} {rest : Text} {child : SpanKind → Nat → Nat → Checked Scanned}

theorem seal?_eq (hsource : source = front ++ o.text) (hstart : o.start = Text.byteLength front)
    {a b : Text} (htext : o.text = a ++ b) (flag : Bool) (children : List Span) (consumed : Nat) :
    seal? source o (Text.byteLength a) flag children consumed =
      some (.ok ⟨o.close (o.start + Text.byteLength a) flag children.reverse, consumed⟩) := by
  have hcut : Text.slice? source o.start (o.start + Text.byteLength a) = some a :=
    Text.slice?_eq_some_iff.mpr ⟨front, b, by rw [hsource, htext], hstart.symm, rfl⟩
  have hown : Text.slice o.text 0 (o.start + Text.byteLength a - o.start) = a := by
    rw [htext, Nat.add_sub_cancel_left]
    exact Text.slice_front rfl
  rw [seal?, hcut]
  simp only [Option.map_some, Opening.close, hown]

/-- The jump over the text of the last child. -/
theorem body_jump (hle : q.cursor ≤ q.covered) (hin : q.covered ≤ Text.byteLength o.text) :
    body table expired source child o q =
      body table expired source child o { q with cursor := q.covered } := by
  by_cases hlt : q.cursor < q.covered
  · rw [body, if_pos (by omega), if_pos hlt]
  · have heq : { q with cursor := q.covered } = q := by
      obtain ⟨cursor, covered, lineIndent, children⟩ := q
      simp only [Place.mk.injEq, and_true] at *
      omega
    rw [heq]

theorem Stands.place (h : Stands o p rest q) :
    Cursor.at? o.text q.cursor = some ⟨p.back, rest⟩ :=
  Cursor.at?_eq_some_iff.mpr ⟨h.text_eq, h.cursor_eq.symm⟩

theorem Stands.cursor_lt {c : Char} (h : Stands o p (c :: rest) q) :
    q.cursor < Text.byteLength o.text := by
  have := c.utf8Size_pos
  rw [h.text_eq, h.cursor_eq]
  simp only [Text.byteLength_append, Text.byteLength_reverse, Text.byteLength_cons]
  omega

/-- What a scan by offsets has to know of the scans of children. -/
def Follows (table : RuleTable) (options : ScanOptions) (levels : Nat) (source : Text)
    (child : SpanKind → Nat → Nat → Checked Scanned) : Prop :=
  ∀ (o : Opening) (front : Text), source = front ++ o.text → o.start = Text.byteLength front →
    child o.kind o.start o.indent = .ofScan (scanSpan table options levels o)

/-- The text of a child that was taken up at a character, and where it hands back. -/
theorem exists_child_text (hr : table.Regular) {c : Char} {kind : SpanKind} {r : Scanned}
    (opens : table.dispatch (table o.kind) ⟨p.back, c :: rest⟩ = some kind)
    (hs : (o.inner p kind (c :: rest)).Sound table r) :
    ∃ u v, rest = u ++ v ∧ p.handBack r = p.pos + Text.byteLength (c :: u) ∧
      r.span.stop = p.pos + Text.byteLength (c :: u) := by
  have hback := Opening.Midway.inner_handBack hr opens hs
  have hstart : r.span.start = p.pos := hs.reading.start_eq
  have hadv : r.span.start < r.span.stop :=
    hs.advances (SpanKind.refine_ne_file _ _ (hr.dispatch_ne_file opens)) (by simp [Opening.inner])
  have hstop := hs.reading.stop_eq
  obtain ⟨v, hv⟩ := hs.reading.text_eq
  cases ht : r.span.text with
  | nil =>
    rw [ht, Text.byteLength_nil] at hstop
    omega
  | cons d u =>
    rw [ht] at hv hstop
    simp only [Opening.inner, List.cons_append, List.cons.injEq] at hv
    obtain ⟨rfl, hv⟩ := hv
    exact ⟨u, v, hv, by omega, by omega⟩

/-- Behind a child both scans stand at its end. -/
theorem Stands.behindChild {c : Char} {u v : Text} {r : Scanned} (h : Stands o p (c :: (u ++ v)) q)
    (hback : p.handBack r = p.pos + Text.byteLength (c :: u)) :
    Stands o ((p.adopt c r).past u) v
      ⟨q.cursor + Text.byteLength (c :: u), q.cursor + Text.byteLength (c :: u), q.lineIndent,
        r.span :: q.children⟩ where
  text_eq := by simp [Progress.adopt, Progress.past, Progress.skip, h.text_eq]
  pos_eq := by
    simp only [Progress.adopt, Progress.past, Progress.skip, h.pos_eq, Text.byteLength_append,
      Text.byteLength_reverse, Text.byteLength_cons]
    omega
  outside := by
    simp only [Progress.adopt, Progress.past, Progress.skip, hback, Text.byteLength_cons]
    omega
  cursor_eq := by
    simp only [Progress.adopt, Progress.past, Progress.skip, h.cursor_eq, Text.byteLength_append,
      Text.byteLength_reverse, Text.byteLength_cons]
    omega
  covered_le := Nat.le_refl _
  indent_eq := h.indent_eq
  children_eq := by simp [Progress.adopt, Progress.past, h.children_eq]

theorem Stands.step (options : ScanOptions) (levels : Nat) (hblanks : table.PassesBlanks) {c : Char}
    (h : Stands o p (c :: rest) q)
    (stays : (table o.kind).ending.closes o.indent ⟨p.back, c :: rest⟩ = false) :
    ∃ p' v, v.length ≤ rest.length ∧ Stands o p' v (q.step ⟨p.back, c :: rest⟩) ∧
      scanBody table options.expired (scanSpan table options levels) o (p.step c rest) rest =
        scanBody table options.expired (scanSpan table options levels) o p' v := by
  have houtside : ¬ (p.step c rest).pos < (p.step c rest).resumeAt := by
    have := h.outside
    simp only [Progress.step]
    omega
  have hcovered := h.covered_le
  by_cases hc : c = '\n'
  · subst hc
    have hsplit : rest = rest.takeWhile (· == ' ') ++ rest.dropWhile (· == ' ') :=
      List.takeWhile_append_dropWhile.symm
    have hspaces : ∀ d ∈ rest.takeWhile (· == ' '), d = ' ' := fun d hd => by
      simpa using List.all_eq_true.mp List.all_takeWhile d hd
    have hbytes : Text.byteLength (rest.takeWhile (· == ' ')) = leadingSpaces rest :=
      Text.byteLength_spaces hspaces
    refine ⟨(p.step '\n' rest).past (rest.takeWhile (· == ' ')), rest.dropWhile (· == ' '),
      (List.dropWhile_sublist _).length_le, ?_, ?_⟩
    · constructor
      · simp [Progress.step, Progress.past, h.text_eq, ← hsplit]
      · simp only [Progress.step, Progress.past, h.pos_eq, Text.byteLength_append,
          Text.byteLength_reverse, Text.byteLength_cons]
        omega
      · simp only [Progress.past] at houtside ⊢
        omega
      · simp only [Progress.step, Progress.past, Place.step, h.cursor_eq, Text.byteLength_append,
          Text.byteLength_reverse, Text.byteLength_cons, hbytes, beq_self_eq_true, if_true]
        rw [show ('\n' : Char).utf8Size = 1 from rfl]
        omega
      · simp only [Place.step, beq_self_eq_true, if_true]
        omega
      · simp [Progress.step, Progress.past, Place.step]
      · simp [Progress.step, Progress.past, Place.step, h.children_eq]
    · have hquiet : ∀ back t, table.Quiet o.kind o.indent ⟨back, ' ' :: t⟩ := fun back t =>
        ⟨hblanks.idle _ _ _, hblanks.stays _ _ _ _ _ _ stays⟩
      calc scanBody table options.expired (scanSpan table options levels) o (p.step '\n' rest) rest
        _ = scanBody table options.expired (scanSpan table options levels) o (p.step '\n' rest)
              (rest.takeWhile (· == ' ') ++ rest.dropWhile (· == ' ')) := by rw [← hsplit]
        _ = _ := scanBody_blanks houtside hspaces hquiet
  · have hne : (c == '\n') = false := by simpa using hc
    refine ⟨p.step c rest, rest, Nat.le_refl _, ?_, rfl⟩
    constructor
    · simp [Progress.step, h.text_eq]
    · simp only [Progress.step, h.pos_eq, Text.byteLength_cons]
      omega
    · exact houtside
    · simp only [Progress.step, Place.step, h.cursor_eq, Text.byteLength_cons, hne,
        Bool.false_eq_true, if_false]
      omega
    · simp only [Place.step, hne, Bool.false_eq_true, if_false]
      omega
    · simp [Progress.step, Place.step, hne, h.indent_eq]
    · simp [Progress.step, Place.step, hne, h.children_eq]

/-- The end of a span that fires is a cut of the source. -/
theorem Stands.closes (hr : table.Regular) (hsource : source = front ++ o.text)
    (hstart : o.start = Text.byteLength front) (h : Stands o p rest q)
    (fires : (table o.kind).ending.closes o.indent ⟨p.back, rest⟩ = true) :
    seal? source o
        (max (min (q.cursor + (table o.kind).trailing) (Text.byteLength o.text)) q.covered) false
        q.children ((q.cursor : Int) + (table o.kind).resume).toNat =
      some (.ok ⟨o.close (p.pos + min (table o.kind).trailing (Text.byteLength rest)) false
        p.children.reverse, ((p.pos - o.start : Nat) + (table o.kind).resume).toNat⟩) := by
  obtain ⟨a, b, hab, hlen⟩ := hr.cut o.kind o.indent _ fires
  have hab : rest = a ++ b := hab
  have hcovered := h.covered_le
  have hcursor := h.cursor_eq
  have hpos := h.pos_eq
  have htext : o.text = (p.back.reverse ++ a) ++ b := by rw [h.text_eq, hab, List.append_assoc]
  have htrail : Text.byteLength (p.back.reverse ++ a) = q.cursor + (table o.kind).trailing := by
    rw [Text.byteLength_append, Text.byteLength_reverse]
    omega
  have hmax : max (min (q.cursor + (table o.kind).trailing) (Text.byteLength o.text)) q.covered =
      Text.byteLength (p.back.reverse ++ a) := by
    rw [htext, Text.byteLength_append, htrail]
    omega
  have hmin : min (table o.kind).trailing (Text.byteLength rest) = (table o.kind).trailing := by
    rw [hab, Text.byteLength_append]
    omega
  have hstop : o.start + Text.byteLength (p.back.reverse ++ a) =
      p.pos + (table o.kind).trailing := by omega
  rw [hmax, seal?_eq hsource hstart htext, hmin, hstop, h.children_eq,
    show p.pos - o.start = q.cursor by omega]

/-- The end of a definition that seals its span is a cut of the source. -/
theorem Stands.isSealed {c : Char} {u v : Text} {r : Scanned} (hsource : source = front ++ o.text)
    (hstart : o.start = Text.byteLength front) (h : Stands o p (c :: (u ++ v)) q)
    (hback : p.handBack r = p.pos + Text.byteLength (c :: u)) :
    seal? source o (q.cursor + Text.byteLength (c :: u)) false (r.span :: q.children)
        (q.cursor + Text.byteLength (c :: u)) =
      some (.ok ⟨o.close (p.handBack r) false (r.span :: p.children).reverse,
        p.handBack r - o.start⟩) := by
  have hpos := h.pos_eq
  have hcursor := h.cursor_eq
  have htext : o.text = (p.back.reverse ++ (c :: u)) ++ v := by
    rw [h.text_eq, List.append_assoc, List.cons_append]
  have hlen : Text.byteLength (p.back.reverse ++ (c :: u)) =
      q.cursor + Text.byteLength (c :: u) := by
    rw [Text.byteLength_append, Text.byteLength_reverse, hcursor]
  rw [← hlen, seal?_eq hsource hstart htext, hlen, h.children_eq,
    show o.start + (q.cursor + Text.byteLength (c :: u)) = p.handBack r by omega,
    show q.cursor + Text.byteLength (c :: u) = p.handBack r - o.start by omega]

theorem body_eq {options : ScanOptions} {levels : Nat} (hr : table.Regular)
    (hblanks : table.PassesBlanks) (hsource : source = front ++ o.text)
    (hstart : o.start = Text.byteLength front)
    (hchild : Follows table options levels source child) (h : Stands o p rest q) :
    body table options.expired source child o q =
      .ofScan (scanBody table options.expired (scanSpan table options levels) o p rest) := by
  induction hn : rest.length using Nat.strongRecOn generalizing p rest q with
  | ind n ih =>
    subst hn
    cases rest with
    | nil =>
      have htext : o.text = p.back.reverse ++ [] := h.text_eq
      have hlen : Text.byteLength o.text = Text.byteLength p.back.reverse := by simp [htext]
      have hcursor := h.cursor_eq
      rw [body, if_neg (by rw [hlen, hcursor, Text.byteLength_reverse]; omega), hlen,
        seal?_eq hsource hstart htext, h.children_eq, scanBody]
      simp only [Checked.ofScan, h.pos_eq, Text.byteLength_reverse, Nat.add_sub_cancel_left]
    | cons c rest =>
      have hcovered := h.covered_le
      have hpos := h.pos_eq
      have hcur := h.cursor_eq
      rw [body, if_pos h.cursor_lt, if_neg (by omega), h.place, scanBody, if_neg h.outside]
      simp only
      cases hd : table.dispatch (table o.kind) ⟨p.back, c :: rest⟩ with
      | some kind =>
        have hat : o.start + q.cursor = p.pos := by omega
        have hfollow := hchild (o.inner p kind (c :: rest)) (front ++ p.back.reverse)
          (by rw [hsource, h.text_eq, List.append_assoc]; rfl)
          (by rw [Text.byteLength_append, Text.byteLength_reverse, ← hstart]; exact hpos)
        simp only [Opening.inner] at hfollow
        simp only [hat, h.indent_eq, hfollow]
        cases hscan : scanSpan table options levels
            ⟨o.kind.refine o.text kind, p.pos, p.lineIndent, c :: rest⟩ with
        | error e => cases e <;> rfl
        | ok r =>
          have hs : (o.inner p kind (c :: rest)).Sound table r := scanSpan_sound hr hscan
          obtain ⟨u, v, rfl, hback, hstop⟩ := exists_child_text hr hd hs
          have hcovers : r.span.stop - o.start = q.cursor + Text.byteLength (c :: u) := by omega
          have hle : q.cursor + max r.consumed 1 ≤ q.cursor + Text.byteLength (c :: u) := by
            rw [Progress.handBack] at hback
            omega
          simp only [Checked.ofScan, hcovers, if_neg (show ¬ r.span.stop < o.start by omega)]
          by_cases isLast : (r.span.kind.isDefinition && (table o.kind).ending.isDecorated) = true
          · rw [if_pos isLast, if_pos isLast, Nat.max_eq_right hle,
              h.isSealed hsource hstart hback]
            rfl
          · have hin : q.cursor + Text.byteLength (c :: u) ≤ Text.byteLength o.text := by
              rw [h.text_eq, hcur]
              simp only [Text.byteLength_append, Text.byteLength_reverse, Text.byteLength_cons]
              omega
            rw [if_neg isLast, if_neg isLast, body_jump hle hin]
            have hresume : (p.adopt c r).pos + Text.byteLength u = (p.adopt c r).resumeAt := by
              simp only [Progress.adopt, Progress.skip, hback, Text.byteLength_cons]
              omega
            have hstands := h.behindChild hback
            rw [h.indent_eq] at hstands
            have hshorter : v.length < (c :: (u ++ v)).length := by
              rw [List.length_cons, List.length_append]
              omega
            exact (ih v.length hshorter hstands rfl).trans
              (congrArg Checked.ofScan (scanBody_skips hresume).symm)
      | none =>
        by_cases fires : (table o.kind).ending.closes o.indent ⟨p.back, c :: rest⟩ = true
        · simp only [fires, if_true, h.closes hr hsource hstart fires]
          rfl
        · have stays := Bool.eq_false_iff.mpr fires
          obtain ⟨p', v, hlen, hstands, hbody⟩ :=
            h.step options levels hblanks stays
          have hat : o.start + q.cursor = p.pos := by omega
          simp only [stays, Bool.false_eq_true, if_false, hbody, List.head?_cons,
            Option.some_beq_some, hat]
          -- both look at the clock in front of a line feed
          by_cases late : (c == '\n' && options.expired p.pos) = true
          · rw [if_pos late, if_pos late]
            rfl
          · rw [if_neg late, if_neg late]
            exact ih _ (Nat.lt_succ_of_le hlen) hstands rfl

theorem span_eq (options : ScanOptions) (source : Text) (hr : table.Regular)
    (hblanks : table.PassesBlanks) (levels : Nat) :
    Follows table options levels source (span table options source levels) := by
  induction levels with
  | zero =>
    intro o front hsource hstart
    rfl
  | succ levels ih =>
    intro o front hsource hstart
    have hsplit : Text.splitAt? o.start source = some (front, o.text) :=
      Text.splitAt?_eq_some_iff.mpr ⟨hsource, hstart.symm⟩
    rw [span, scanSpan]
    by_cases hx : options.expired o.start = true
    · rw [if_pos hx, if_pos hx]
      rfl
    · rw [if_neg hx, if_neg hx]
      simp only [hsplit]
      cases hcut : Text.splitAt? (min ((table o.kind).opener o.text) (Text.byteLength o.text))
          o.text with
      | none =>
        -- only an opener that ends before the text does can fail to be a cut
        have hlt : min ((table o.kind).opener o.text) (Text.byteLength o.text) <
            Text.byteLength o.text := by
          refine Nat.lt_of_le_of_ne (Nat.min_le_right _ _) fun heq => ?_
          have hall : Text.splitAt? (Text.byteLength o.text) o.text = some (o.text, []) :=
            Text.splitAt?_eq_some_iff.mpr ⟨by simp, rfl⟩
          rw [heq, hall] at hcut
          cases hcut
        rw [body, if_pos hlt, if_neg (Nat.not_lt_zero _), Cursor.at?, hcut]
        rfl
      | some cut =>
        obtain ⟨opened, rest⟩ := cut
        obtain ⟨htext, hlen⟩ := Text.splitAt?_eq_some_iff.mp hcut
        refine body_eq hr hblanks hsource hstart ih ⟨?_, ?_, ?_, ?_, Nat.zero_le _, rfl, rfl⟩
        · simpa using htext
        · simp [hlen]
        · exact Nat.not_lt_zero _
        · simp [hlen]

theorem scan?_eq {options : ScanOptions} (hr : table.Regular) (hblanks : table.PassesBlanks) :
    scan? table options source = .ofScan (table.scan options source) := by
  have hfile := span_eq options source hr hblanks (options.maxDepth + 1) ⟨.file, 0, 0, source⟩ []
    rfl rfl
  simp only at hfile
  rw [scan?, hfile, RuleTable.scan]
  cases scanSpan table options (options.maxDepth + 1) ⟨.file, 0, 0, source⟩ with
  | ok r => rfl
  | error e => cases e <;> rfl

end

end Offsets

end DocCoverage
