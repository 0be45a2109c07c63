import DocCoverage.Proofs.Scan.Nesting
import DocCoverage.Proofs.Scan.Runs
import DocCoverage.Proofs.Scan.Unterminated

/-!
# Literals are read from left to right

A string or docstring without placeholders ends where a lexer that goes from left to right ends it.
The scan decides at every place, by the parity of the run of backslashes before it, whether a
delimiter there is escaped; the lexer only remembers whether the next character is to be skipped.
The two agree at every place that the lexer gets to.
-/
namespace DocCoverage

/-- A string or docstring without placeholders. -/
def SpanKind.isLiteral : SpanKind → Bool
  | .singleString | .doubleString | .singleDocstring | .doubleDocstring => true
  | _ => false

/-- The number of bytes behind the opening delimiter of a literal, up to the end of the first
closing delimiter. A backslash is skipped together with the character behind it; `skips` holds
behind the backslash. There is no answer if the text ends before the literal does. -/
def lexLiteral (closer : Text) : (skips : Bool) → Text → Option Nat
  | _, [] => none
  | true, c :: t => (lexLiteral closer false t).map (c.utf8Size + ·)
  | false, c :: t =>
    if Text.startsWith (c :: t) closer then some (Text.byteLength closer)
    else (lexLiteral closer (c == '\\') t).map (c.utf8Size + ·)

namespace Cursor

/-- One backslash further, escaping changes; behind every other character nothing is escaped. -/
theorem escaped_cons (c : Char) (back t t' : Text) :
    escaped ⟨c :: back, t⟩ = (c == '\\' && !escaped ⟨back, t'⟩) := by
  by_cases hc : c = '\\'
  · subst hc
    simp only [escaped, List.takeWhile_cons, beq_self_eq_true, if_true, List.length_cons,
      Bool.true_and]
    rcases Nat.mod_two_eq_zero_or_one (back.takeWhile (· == '\\')).length with h | h
    · rw [h, Nat.add_mod, h]
      rfl
    · rw [h, Nat.add_mod, h]
      rfl
  · have hne : (c == '\\') = false := by simpa using hc
    simp [escaped, hne]

end Cursor

section

variable {closer : Text} {indent : Nat} {back u v : Text}

/-- An unescaped closing delimiter stands at the cursor. -/
abbrev closesLiteral (closer : Text) (indent : Nat) (cur : Cursor) : Bool :=
  (End.ahead (Rule.word closer) true).closes indent cur

theorem lexLiteral_step {c : Char} {t : Text}
    (h : closesLiteral closer indent ⟨back, c :: t⟩ = false) :
    lexLiteral closer (Cursor.escaped ⟨back, c :: t⟩) (c :: t) =
      (lexLiteral closer (Cursor.escaped ⟨c :: back, t⟩) t).map (c.utf8Size + ·) := by
  rw [Cursor.escaped_cons c back t (c :: t)]
  simp only [closesLiteral, End.closes, Rule.word, Bool.true_and] at h
  cases hescaped : Cursor.escaped ⟨back, c :: t⟩ with
  | true => rw [lexLiteral, Bool.not_true, Bool.and_false]
  | false =>
    rw [hescaped, Bool.not_false, Bool.true_and] at h
    rw [lexLiteral, if_neg (by simp [h]), Bool.not_false, Bool.and_true]

/-- The lexer goes over a stretch in which the literal does not end. -/
theorem lexLiteral_quiet
    (h : ∀ a c b, u = a ++ c :: b →
      closesLiteral closer indent ⟨a.reverse ++ back, c :: (b ++ v)⟩ = false) :
    lexLiteral closer (Cursor.escaped ⟨back, u ++ v⟩) (u ++ v) =
      (lexLiteral closer (Cursor.escaped ⟨u.reverse ++ back, v⟩) v).map
        (Text.byteLength u + ·) := by
  induction u generalizing back with
  | nil => simp
  | cons c u ih =>
    have hrest : lexLiteral closer (Cursor.escaped ⟨c :: back, u ++ v⟩) (u ++ v) =
        (lexLiteral closer (Cursor.escaped ⟨u.reverse ++ c :: back, v⟩) v).map
          (Text.byteLength u + ·) := by
      refine ih fun a d b hu => ?_
      have hd := h (c :: a) d b (by rw [hu]; rfl)
      rwa [List.reverse_cons, List.append_assoc] at hd
    have hhead : closesLiteral closer indent ⟨back, c :: (u ++ v)⟩ = false := h [] c u rfl
    rw [List.cons_append, lexLiteral_step hhead, hrest, Option.map_map,
      List.reverse_cons, List.append_assoc, List.singleton_append]
    refine congrArg (Option.map · _) (funext fun n => ?_)
    rw [Function.comp_apply, Text.byteLength_cons, Nat.add_assoc]

/-- The lexer stops behind the delimiter at which the literal ends. -/
theorem lexLiteral_closes (h : closesLiteral closer indent ⟨back, v⟩ = true) (hv : v ≠ []) :
    lexLiteral closer (Cursor.escaped ⟨back, v⟩) v = some (Text.byteLength closer) := by
  obtain ⟨c, t, rfl⟩ := List.exists_cons_of_ne_nil hv
  have hplain := Rule.escaped_of_closes h
  have hword : Text.startsWith (c :: t) closer = true := Rule.accepts_of_closes h
  rw [hplain, lexLiteral, if_pos hword]

end

namespace Rule

variable {k : SpanKind}

theorem word_singleton (q : Char) (t : Text) : word [q] t = starts (only q) t := by
  cases t with
  | nil => rfl
  | cons c t =>
    rw [Bool.eq_iff_iff, word, Text.startsWith_iff]
    constructor
    · rintro ⟨rest, hrest⟩
      rw [(List.cons.inj hrest).1]
      exact beq_self_eq_true q
    · exact starts_only

theorem closes_literal (hk : k.isLiteral = true) (indent : Nat) (cur : Cursor) :
    (standard k).ending.closes indent cur = closesLiteral k.closer indent cur := by
  cases k with
  | singleString | doubleString =>
    simp only [closesLiteral, End.closes, SpanKind.closer, word_singleton]
    rfl
  | singleDocstring | doubleDocstring => rfl
  | _ => cases hk

theorem literal_children (hk : k.isLiteral = true) : (standard k).children = [] := by
  cases k with
  | singleString | doubleString | singleDocstring | doubleDocstring => rfl
  | _ => cases hk

theorem literal_opener (hk : k.isLiteral = true) (t : Text) :
    (standard k).opener t = Text.byteLength k.closer := by
  cases k with
  | singleString | doubleString | singleDocstring | doubleDocstring => rfl
  | _ => cases hk

/-- The opening delimiter of a literal is the one that closes it. -/
theorem exists_of_opens_literal (hk : k.isLiteral = true) {back t : Text}
    (h : (standard k).opens ⟨back, t⟩ = true) : ∃ rest, t = k.closer ++ rest := by
  cases t with
  | nil => cases h
  | cons c t =>
    obtain ⟨hcurrent, -, hahead⟩ := opens_cons h
    cases k with
    | singleString | doubleString => exact ⟨t, congrArg (· :: t) (eq_of_beq hcurrent)⟩
    | singleDocstring | doubleDocstring =>
      obtain ⟨rest, rfl⟩ := Text.startsWith_iff.mp hahead
      exact ⟨rest, congrArg (· :: _) (eq_of_beq hcurrent)⟩
    | _ => cases hk

end Rule

namespace SpanKind

variable {k : SpanKind}

theorem isDelimited_of_isLiteral (hk : k.isLiteral = true) : k.isDelimited = true := by
  cases k with
  | singleString | doubleString | singleDocstring | doubleDocstring => rfl
  | _ => cases hk

theorem closer_of_isLiteral (hk : k.isLiteral = true) : k.closer ≠ [] ∧ '\\' ∉ k.closer := by
  cases k with
  | singleString | doubleString | singleDocstring | doubleDocstring => decide
  | _ => cases hk

end SpanKind

namespace Opening

variable {s : Span} {rest u v : Text}

theorem lexLiteral_of_quiet (hk : s.kind.isLiteral = true)
    (h : (s.opening (s.kind.closer ++ (u ++ v))).QuietUpTo Rule.standard []
      (Text.byteLength s.kind.closer + Text.byteLength u)) :
    lexLiteral s.kind.closer false (u ++ v) =
      (lexLiteral s.kind.closer (Cursor.escaped ⟨u.reverse ++ s.kind.closer.reverse, v⟩) v).map
        (Text.byteLength u + ·) := by
  have hplain : Cursor.escaped ⟨s.kind.closer.reverse, u ++ v⟩ = false :=
    Cursor.escaped_eq_false (by simpa using (SpanKind.closer_of_isLiteral hk).2)
  rw [← hplain]
  suffices hquiet : ∀ a c b, u = a ++ c :: b → closesLiteral s.kind.closer s.indent
      ⟨a.reverse ++ s.kind.closer.reverse, c :: (b ++ v)⟩ = false from lexLiteral_quiet hquiet
  rintro a c b rfl
  rw [← Rule.closes_literal hk]
  refine (h (Text.byteLength (s.kind.closer ++ a))
    ⟨a.reverse ++ s.kind.closer.reverse, c :: (b ++ v)⟩ ?_ ?_ ?_ (List.cons_ne_nil _ _) ?_).2
  · simp only [width, Span.opening, Rule.literal_opener hk, Text.byteLength_append]
    omega
  · have hsize := c.utf8Size_pos
    simp only [Text.byteLength_append, Text.byteLength_cons]
    omega
  · refine Cursor.at?_eq_some_iff.mpr ⟨?_, ?_⟩
    · simp [Span.opening]
    · simp [Nat.add_comm]
  · rintro ⟨d, hd, -⟩
    cases hd

/-- A literal ends where the lexer stops behind its opening delimiter; if the lexer does not stop,
the literal takes up the rest of the source and is unterminated. -/
theorem Reading.literal_end (hk : s.kind.isLiteral = true)
    (h : (s.opening (s.kind.closer ++ rest)).Reading Rule.standard s) :
    match lexLiteral s.kind.closer false rest with
    | some n => s.stop = s.start + Text.byteLength s.kind.closer + n ∧ s.unterminated = false
    | none => s.stop = s.start + Text.byteLength (s.kind.closer ++ rest) ∧
        s.unterminated = true := by
  have hleaf := h.children_eq_nil (Rule.literal_children hk)
  have hdelimited := SpanKind.isDelimited_of_isLiteral hk
  cases h.ending with
  | closed e cur place behind bare idle fires stop_eq terminated quiet =>
    obtain ⟨hcut, hlen⟩ := Cursor.at?_eq_some_iff.mp place
    obtain ⟨back, ahead⟩ := cur
    simp only [Span.opening, width, Rule.literal_opener hk] at hcut hlen behind
    obtain ⟨u, hback, rfl⟩ := Text.append_split_of_le hcut (by simp; omega)
    obtain rfl : back = u.reverse ++ s.kind.closer.reverse := by
      rw [← List.reverse_append, ← hback, List.reverse_reverse]
    obtain ⟨-, after, hahead⟩ := Rule.closer_of_closes hdelimited fires
    have hne : ahead ≠ [] := by
      intro hnil
      have hahead : ahead = s.kind.closer ++ after := hahead
      rw [hnil] at hahead
      exact (SpanKind.closer_of_isLiteral hk).1 (List.append_eq_nil_iff.mp hahead.symm).1
    have hcloses : closesLiteral s.kind.closer s.indent
        ⟨u.reverse ++ s.kind.closer.reverse, ahead⟩ = true := by
      rw [← Rule.closes_literal hk]
      exact fires
    simp only [Text.byteLength_append, Text.byteLength_reverse] at hlen
    rw [lexLiteral_of_quiet hk (by rw [← hleaf]; simpa [← hlen, Nat.add_comm] using quiet),
      lexLiteral_closes hcloses hne]
    simp only [Span.opening, Rule.standard_trailing hdelimited] at stop_eq
    exact ⟨by simp only; omega, terminated⟩
  | ranOut stop_eq unterminated quiet =>
    have hlexer := lexLiteral_of_quiet (u := rest) (v := []) hk
      (by rw [← hleaf, List.append_nil]; simpa [Span.opening] using quiet)
    rw [List.append_nil] at hlexer
    rw [hlexer, lexLiteral]
    exact ⟨stop_eq, by rw [unterminated, Rule.standard_mustClose]; exact hdelimited⟩
  | decorated kind =>
    simp only [Span.opening] at kind
    rw [kind] at hk
    cases hk

end Opening

/-- A string or docstring without placeholders ends where a lexer that starts behind its opening
delimiter stops; it is unterminated, and takes up the rest of the source, exactly if the lexer does
not stop. -/
theorem scan_literal {options : ScanOptions} {source : Text} {tree s : Span}
    (h : scan options source = .ok tree) (hs : s ∈ tree.preorder) (hk : s.kind.isLiteral = true) :
    ∃ front rest, source = front ++ (s.kind.closer ++ rest) ∧ s.start = Text.byteLength front ∧
      match lexLiteral s.kind.closer false rest with
      | some n => s.stop = s.start + Text.byteLength s.kind.closer + n ∧ s.unterminated = false
      | none => s.stop = Text.byteLength source ∧ s.unterminated = true := by
  have hne : s ≠ tree := by
    rintro rfl
    rw [(file_stop h).1] at hk
    cases hk
  obtain ⟨q, hq, hmem⟩ := Span.exists_parent ((List.mem_cons.mp hs).resolve_left hne)
  obtain ⟨back, t, k, hopens⟩ := scan_opensIn h hq hmem
  have hkind : k = s.kind := hopens.kind_of_ne fun hclass => by
    rw [hclass] at hk
    cases hk
  obtain ⟨rest, rfl⟩ := Rule.exists_of_opens_literal hk
    (hkind ▸ (RuleTable.dispatch_eq_some hopens.dispatch).2)
  obtain ⟨front, hsource, hstart⟩ := hopens.source_eq
  refine ⟨front ++ back.reverse, rest, by rw [hsource, List.append_assoc], ?_, ?_⟩
  · rw [hopens.start_eq, hstart, Text.byteLength_append, Text.byteLength_reverse]
  · have hend := hopens.child.literal_end hk
    have hlen := congrArg Text.byteLength hsource
    have hle := hopens.start_eq
    simp only [Text.byteLength_append, Text.byteLength_reverse] at hlen
    split at hend
    · exact hend
    · exact ⟨by rw [hend.1, Text.byteLength_append]; omega, hend.2⟩

/-- A docstring with an escaped quote and an escaped backslash, in front of a string that is not
closed, since its last quote is escaped. -/
theorem scan_literal_escapes : ∃ tree s d,
    scan {} "'''é\\'''\\\\'''\nx = '\\'" = .ok tree ∧
      s ∈ tree.preorder ∧ s.kind = .singleDocstring ∧ s.unterminated = false ∧
      d ∈ tree.preorder ∧ d.kind = .singleString ∧ d.unterminated = true ∧
      (∃ (n : Nat) (front rest : Text), "'''é\\'''\\\\'''\nx = '\\'" = front ++ ("'''" ++ rest) ∧
        s.start = Text.byteLength front ∧ lexLiteral "'''" false rest = some n ∧
        s.stop = s.start + 3 + n) ∧
      ∃ front rest : Text, "'''é\\'''\\\\'''\nx = '\\'" = front ++ ("'" ++ rest) ∧
        d.start = Text.byteLength front ∧ lexLiteral "'" false rest = none ∧ d.stop = 22 := by
  have htest : (scan {} "'''é\\'''\\\\'''\nx = '\\'").toOption.any (fun tree =>
      tree.preorder.any (fun s => s.kind == .singleDocstring && !s.unterminated) &&
      tree.preorder.any fun d => d.kind == .singleString && d.unterminated) = true := by
    decide +kernel
  obtain ⟨tree, htree, htest⟩ := scan_ok_of_any htest
  simp only [Bool.and_eq_true, List.any_eq_true, beq_iff_eq, Bool.not_eq_true'] at htest
  obtain ⟨⟨s, hs, hkind, hclosed⟩, d, hd, hkind', hopen⟩ := htest
  obtain ⟨front, rest, hsource, hstart, hend⟩ := scan_literal htree hs (by rw [hkind]; rfl)
  obtain ⟨front', rest', hsource', hstart', hend'⟩ := scan_literal htree hd (by rw [hkind']; rfl)
  rw [hkind] at hsource hend
  rw [hkind'] at hsource' hend'
  refine ⟨tree, s, d, htree, hs, hkind, hclosed, hd, hkind', hopen, ?_, ?_⟩
  · split at hend
    · rename_i n hlexer
      exact ⟨n, front, rest, hsource, hstart, hlexer, hend.1⟩
    · rw [hclosed] at hend
      cases hend.2
  · split at hend'
    · rw [hopen] at hend'
      cases hend'.2
    · rename_i hlexer
      exact ⟨front', rest', hsource', hstart', hlexer, hend'.1⟩

end DocCoverage
