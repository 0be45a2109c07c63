import DocCoverage.Proofs.Grammar.Accepts
import DocCoverage.Proofs.Grammar.Mentions

/-!
# What the standard grammar finds

The fields of a sort are searched for with an expression of their own, which may match anywhere in
the docstring. A match takes up the line from the field on and the lines of text behind it, so the
search goes through the lines from one mention to the next. In a docstring of the standard form it
finds the documented fields exactly if every mention is in one of them.
-/
namespace DocCoverage

namespace Standard

open Pattern (CharSet Expr State)
open Pattern.Expr
open Text (ended isWord)

/-! ## Where no match starts -/

/-- Every text that the expression spells starts with a line of a class. -/
def OpensWith (e : Expr) (p : Text → Prop) : Prop :=
  ∀ u, e.Spells u → ∃ l r, u = l ++ '\n' :: r ∧ p l ∧ '\n' ∉ l

section

variable {e : Expr} {p : Text → Prop} {l v : Text} {s : FieldSort}

theorem SpellsLine.opensWith (h : SpellsLine e p) : OpensWith e p := by
  intro u hu
  obtain ⟨l, ⟨hl, hfeed⟩, rfl⟩ := (h u).mp hu
  exact ⟨l, [], rfl, hl, hfeed⟩

/-- There is no match where another line stands. -/
theorem OpensWith.fails (h : OpensWith e p) (hl : ¬ p l) (hfeed : '\n' ∉ l) (v : Text) :
    Fails e (l ++ '\n' :: v) := by
  apply Fails.of_spells
  intro u r hur hu
  obtain ⟨k, r', rfl, hk, hkfeed⟩ := h u hu
  rw [List.append_assoc, List.cons_append] at hur
  have hlines := congrArg (Text.splitOn '\n') hur
  rw [Text.splitOn_append hfeed, Text.splitOn_append hkfeed] at hlines
  obtain ⟨rfl, -⟩ := List.cons.inj hlines
  exact hl hk

theorem OpensWith.fails_of_not_mem (h : OpensWith e p) (hfeed : '\n' ∉ v) : Fails e v := by
  apply Fails.of_spells
  rintro u r rfl hu
  obtain ⟨k, r', rfl, -, -⟩ := h u hu
  exact hfeed (by simp)

/-- The expression that searches for the fields of a sort. -/
def FieldSort.matcher : FieldSort → Expr
  | params => Grammar.standard.parameter
  | returns => Grammar.standard.returns
  | yields => Grammar.standard.yields
  | raises => Grammar.standard.raises

/-- The groups of a match spell the parts of one field. -/
theorem spells_matcher {u : Text} (h : s.matcher.Spells u) :
    (Expr.sequence (s.head ++ entryTail)).Spells u := by
  have hplain : ∀ {es : List Expr}, (plain es).Spells u →
      (Expr.sequence (es ++ entryTail)).Spells u := by
    intro es hes
    rw [plain, spells_sequence_cons] at hes
    obtain ⟨x, y, rfl, hx, hy⟩ := hes
    exact spells_sequence_append.mpr ⟨x, y, rfl, hx, hy⟩
  have hnamed : ∀ {n : Text} {f : Expr} {es fs : List Expr},
      (Expr.sequence [.group none (.sequence es), .group (some n) f,
        .group none (.sequence fs)]).Spells u → (Expr.sequence (es ++ f :: fs)).Spells u := by
    intro n f es fs hes
    simp only [spells_sequence_cons] at hes
    obtain ⟨x, _, rfl, hx, y, _, rfl, hy, z, w, rfl, hz, hw⟩ := hes
    obtain rfl : w = [] := hw
    rw [List.append_nil, spells_sequence_append]
    exact ⟨x, y ++ z, rfl, hx, spells_sequence_cons.mpr ⟨y, z, rfl, hy, hz⟩⟩
  cases s with
  | params =>
    have hparts : FieldSort.params.head ++ entryTail =
        paramHead ++ name :: char ':' :: entryTail := rfl
    have hmatcher : FieldSort.params.matcher = .sequence [.group none (.sequence paramHead),
        .group (some Grammar.nameGroup) name,
        .group none (.sequence (char ':' :: entryTail))] := rfl
    rw [hmatcher] at h
    rw [hparts]
    exact hnamed h
  | returns => exact hplain h
  | yields => exact hplain h
  | raises =>
    have hparts : FieldSort.raises.head ++ entryTail = raiseHead ++ dottedName :: entryTail := rfl
    have hmatcher : FieldSort.raises.matcher = .sequence [.group none (.sequence raiseHead),
        .group (some Grammar.nameGroup) dottedName, .group none (.sequence entryTail)] := rfl
    rw [hmatcher] at h
    rw [hparts]
    exact hnamed h

theorem opensWith_matcher (s : FieldSort) :
    OpensWith s.matcher fun l => fieldAt? s l ≠ none := by
  intro u hu
  have hspells := spells_matcher hu
  rw [FieldSort.head, List.append_assoc, spells_sequence_append] at hspells
  simp only [spells_letters_iff, entryTail, spells_sequence_append, spells_sequence_cons,
    spells_lineRest_iff, spells_char_iff] at hspells
  obtain ⟨_, _, rfl, rfl, x, _, rfl, hx, y, _, rfl, hy, _, z, rfl, rfl, -⟩ := hspells
  obtain ⟨hgoes, hfeed⟩ := goes_of_spells hx hy
  refine ⟨':' :: (s.keyword ++ (x ++ y)), z, by simp, fieldAt?_ne_none_iff.mpr ⟨_, rfl, hgoes⟩, ?_⟩
  have hkeyword : '\n' ∉ s.keyword := by cases s <;> decide
  simp only [List.mem_cons, List.mem_append, not_or] at hfeed ⊢
  exact ⟨by decide, hkeyword, hfeed⟩

end

/-! ## The match at a field -/

section

variable {s : FieldSort} {a l n v y : Text} {ts : List Text}

theorem contains_single_of_ne {c d : Char} (h : d ≠ c) : (CharSet.single c).contains d = false :=
  Bool.eq_false_iff.mpr fun hd => h (CharSet.contains_single.mp hd)

theorem eats_char (c : Char) (v : Text) : Eats (char c) [c] v :=
  eats_chars (CharSet.contains_single.mpr rfl)

theorem eats_lineRest (hy : '\n' ∉ y) (v : Text) : Eats lineRest y ('\n' :: v) := by
  refine (repeats_chars (fun d hd => ?_) (head_eq (by decide))).star
  simp only [CharSet.contains, Bool.not_eq_true']
  refine contains_single_of_ne ?_
  rintro rfl
  exact hy hd

/-- Spaces are read up to the first other character. -/
theorem repeats_spaces (ha : IsBlank a) (hv : ∀ c, v.head? = some c → (c == ' ') = false) :
    Repeats (char ' ') a v :=
  repeats_chars (isBlank_iff.mpr ha) fun c hc =>
    contains_single_of_ne (beq_eq_false_iff_ne.mp (hv c hc))

/-- The colon of a keyword, in the singular or the plural. -/
theorem eats_plural {k : Text} (hk : k = [':'] ∨ k = ['s', ':']) (v : Text) :
    EatsAll [optionalS, char ':'] k v := by
  rcases hk with rfl | rfl
  · refine .cons (x := []) (eats_optional (fails_chars (head_eq ?_))) (.single (eats_char ':' v))
    exact contains_single_of_ne (by decide)
  · exact .cons (x := ['s']) (eats_optional_some (eats_char 's' _)) (.single (eats_char ':' v))

theorem eats_textLine (hl : IsText l) (hfeed : '\n' ∉ l) (v : Text) :
    Eats (.group none (.sequence textLine)) (l ++ ['\n']) v := by
  obtain ⟨a, c, b, rfl, ha, hblank, hcolon⟩ := hl
  have hspace : (c == ' ') = false := by
    rw [beq_eq_false_iff_ne]
    rintro rfl
    cases hblank
  have hb : '\n' ∉ b := fun hmem => hfeed (by simp [hmem])
  have hsplit : (a ++ c :: b) ++ ['\n'] = a ++ ([c] ++ (b ++ ['\n'])) := by simp
  rw [hsplit]
  exact EatsAll.sequence (.cons (repeats_spaces ha (head_eq hspace)).star
    (.cons (eats_chars (contains_leading.mpr ⟨hblank, hcolon⟩))
      (.cons (eats_lineRest hb v) (.single (eats_char '\n' v)))))

/-- The rest of a field is the rest of its line and the lines of text behind it. -/
theorem eats_fieldTail (hy : '\n' ∉ y) (hts : ∀ t ∈ ts, IsText t ∧ '\n' ∉ t)
    (hv : Fails (.group none (.sequence textLine)) v) :
    EatsAll entryTail (y ++ '\n' :: ended '\n' ts) v := by
  have htexts : Repeats (.group none (.sequence textLine)) (ended '\n' ts) v := by
    induction ts with
    | nil => exact .stop hv
    | cons t ts ih =>
      obtain ⟨⟨ht, hfeed⟩, hts⟩ := List.forall_mem_cons.mp hts
      rw [Text.ended_cons, ← List.singleton_append, ← List.append_assoc]
      exact .more (by simp) (eats_textLine ht hfeed _) (ih hts)
  refine .cons (eats_lineRest hy _) (.cons (x := ['\n']) (eats_char '\n' _) ?_)
  exact .single htexts.star

theorem exists_plural {u rest : Text} (h : u = ':' :: rest ∨ u = 's' :: ':' :: rest) :
    ∃ k, u = k ++ rest ∧ (k = [':'] ∨ k = ['s', ':']) := by
  rcases h with rfl | rfl
  · exact ⟨[':'], rfl, Or.inl rfl⟩
  · exact ⟨['s', ':'], rfl, Or.inr rfl⟩

/-- What a match binds. -/
def FieldSort.binds : FieldSort → Text → List (Text × Text)
  | params, n => [(Grammar.nameGroup, n)]
  | returns, _ => []
  | yields, _ => []
  | raises, n => [(Grammar.nameGroup, n)]

section

variable {st : State} {u w : Text} (hfeed : '\n' ∉ u) (hts : ∀ t ∈ ts, IsText t ∧ '\n' ∉ t)
  (hv : Fails (.group none (.sequence textLine)) v) (hgroups : st.groups = [])

include hfeed hts hv hgroups

theorem matchAt_unnamed (hu : ∃ rest, u = ':' :: rest ∨ u = 's' :: ':' :: rest)
    (hrest : st.rest = ((w ++ u) ++ '\n' :: ended '\n' ts) ++ v) :
    (plain (letters w ++ [optionalS, char ':'])).matchAt st =
      some ((st.advance ((w ++ u) ++ '\n' :: ended '\n' ts)).withGroups []) := by
  obtain ⟨rest, hu⟩ := hu
  obtain ⟨k, rfl, hk⟩ := exists_plural hu
  have hsplit : (w ++ (k ++ rest)) ++ '\n' :: ended '\n' ts =
      (w ++ k) ++ (rest ++ '\n' :: ended '\n' ts) := by simp
  have hhead := (EatsAll.literal w _).append
    (eats_plural hk ((rest ++ '\n' :: ended '\n' ts) ++ v))
  have htail := eats_fieldTail (y := rest) (fun hmem => hfeed (by simp [hmem])) hts hv
  rw [State.withGroups_self (by rw [State.advance_groups, hgroups])]
  rw [hsplit] at hrest ⊢
  exact EatsAll.sequence (.cons hhead.sequence (.single htail.sequence)) st hrest

theorem matchAt_param (hu : FieldSort.params.Names n u)
    (hrest : st.rest = (':' :: (paramWord ++ u) ++ '\n' :: ended '\n' ts) ++ v) :
    Grammar.standard.parameter.matchAt st =
      some ((st.advance (':' :: (paramWord ++ u) ++ '\n' :: ended '\n' ts)).withGroups
        [(Grammar.nameGroup, n)]) := by
  obtain ⟨a, rest, rfl, ha, hne, hn, hword⟩ := hu
  have hsplit : ':' :: (paramWord ++ (a ++ (n ++ ':' :: rest))) ++ '\n' :: ended '\n' ts =
      (':' :: paramWord ++ a) ++ (n ++ ([':'] ++ (rest ++ '\n' :: ended '\n' ts))) := by simp
  have hhead := (EatsAll.literal (':' :: paramWord) _).append
    (.single ((repeats_spaces ha (head_of_word hn hword (by decide)
      (([':'] ++ (rest ++ '\n' :: ended '\n' ts)) ++ v))).plus hne))
  have hname : Eats name n (([':'] ++ (rest ++ '\n' :: ended '\n' ts)) ++ v) :=
    (repeats_chars hword (head_eq (by decide))).plus hn
  have htail := eats_fieldTail (y := rest) (fun hmem => hfeed (by simp [hmem])) hts hv
  rw [hsplit] at hrest ⊢
  exact matchAt_entry hhead.sequence hname (EatsAll.cons (eats_char ':' _) htail).sequence hrest
    hgroups

theorem matchAt_raise (hu : FieldSort.raises.Names n u)
    (hrest : st.rest = (':' :: (raiseWord ++ u) ++ '\n' :: ended '\n' ts) ++ v) :
    Grammar.standard.raises.matchAt st =
      some ((st.advance (':' :: (raiseWord ++ u) ++ '\n' :: ended '\n' ts)).withGroups
        [(Grammar.nameGroup, n)]) := by
  obtain ⟨a, rest, hcolon, ha, hne, hn, hword, hbehind⟩ := hu
  obtain ⟨k, rfl, hk⟩ := exists_plural hcolon
  have hsplit : ':' :: (raiseWord ++ (k ++ (a ++ (n ++ rest)))) ++ '\n' :: ended '\n' ts =
      ((':' :: raiseWord ++ k) ++ a) ++ (n ++ (rest ++ '\n' :: ended '\n' ts)) := by simp
  have hhead := ((EatsAll.literal (':' :: raiseWord) _).append (eats_plural hk _)).append
    (.single ((repeats_spaces ha (head_of_word hn hword (by decide)
      ((rest ++ '\n' :: ended '\n' ts) ++ v))).plus hne))
  have hdotted : ∀ c, dotted.contains c = (isWord c || c == '.') := fun c => by
    rw [Bool.eq_iff_iff, contains_dotted, Bool.or_eq_true, beq_iff_eq]
  have hname : Eats dottedName n ((rest ++ '\n' :: ended '\n' ts) ++ v) := by
    refine (repeats_chars (fun c hc => (hdotted c).trans (hword c hc)) fun c hc => ?_).plus hn
    rw [hdotted]
    -- the name ends in front of what is left of the line, or of the line feed
    cases rest with
    | nil =>
      obtain rfl : '\n' = c := Option.some.inj hc
      decide
    | cons d rest => exact hbehind c hc
  have htail := eats_fieldTail (y := rest) (fun hmem => hfeed (by simp [hmem])) hts hv
  rw [hsplit] at hrest ⊢
  exact matchAt_entry hhead.sequence hname htail.sequence hrest hgroups

end

theorem matchAt_field (hl : fieldAt? s l = some n) (hfeed : '\n' ∉ l)
    (hts : ∀ t ∈ ts, IsText t ∧ '\n' ∉ t) (hv : Fails (.group none (.sequence textLine)) v)
    {st : State} (hrest : st.rest = (l ++ '\n' :: ended '\n' ts) ++ v) (hgroups : st.groups = []) :
    s.matcher.matchAt st =
      some ((st.advance (l ++ '\n' :: ended '\n' ts)).withGroups (s.binds n)) := by
  obtain ⟨u, rfl, hnames⟩ := fieldAt?_eq_some_iff.mp hl
  have hu : '\n' ∉ u := fun hmem => hfeed (by simp [hmem])
  cases s with
  | params => exact matchAt_param hu hts hv hgroups hnames hrest
  | returns => exact matchAt_unnamed (w := ':' :: returnWord) hu hts hv hgroups hnames.2 hrest
  | yields => exact matchAt_unnamed (w := ':' :: yieldWord) hu hts hv hgroups hnames.2 hrest
  | raises => exact matchAt_raise hu hts hv hgroups hnames hrest

end

/-! ## The search -/

section

variable {s : FieldSort} {l last n : Text} {ls : List Text} {inside : Bool}

theorem fails_matcher_end (s : FieldSort) : Fails s.matcher [] :=
  (opensWith_matcher s).fails_of_not_mem List.not_mem_nil

/-- A text without a field that stands in front of a line's end is passed over. -/
theorem passes_of_fieldAt? {a t v : Text} (hfeed : '\n' ∉ a ++ t)
    (h : ∀ b c, a = b ++ c → c ≠ [] → fieldAt? s (c ++ t) = none) :
    s.matcher.Passes a (t ++ '\n' :: v) := by
  rintro b c rfl hc
  rw [← List.append_assoc]
  refine (opensWith_matcher s).fails (not_not.mpr (h b c rfl hc)) ?_ v
  exact fun hmem => hfeed (by rw [List.append_assoc]; exact List.mem_append_right b hmem)

/-- A line without a mention is passed over. -/
theorem passes_line (hfeed : '\n' ∉ l) (h : mention? s l = none) (v : Text) :
    s.matcher.Passes (l ++ ['\n']) v := by
  have hline : s.matcher.Passes l (['\n'] ++ v) := by
    have hpasses := passes_of_fieldAt? (s := s) (a := l) (t := []) (v := v)
      (by rwa [List.append_nil]) fun b c hbc _ =>
        mention?_eq_none_iff.mp h b (c ++ []) (by rw [hbc, List.append_nil])
    exact hpasses
  refine hline.append fun b c hbc hc => ?_
  obtain ⟨rfl, rfl⟩ : b = [] ∧ c = ['\n'] := by
    cases b with
    | nil => exact ⟨rfl, hbc.symm⟩
    | cons d b => exact absurd (List.append_eq_nil_iff.mp (List.cons.inj hbc).2.symm).2 hc
  exact (opensWith_matcher s).fails (l := []) (fun hne => hne rfl) List.not_mem_nil v

/-- The lines that are left behind a mention do not start with a line of text. -/
theorem fails_textLine_of_not_isText (hls : ∀ l ∈ ls, '\n' ∉ l) (hlast : '\n' ∉ last)
    (h : ∀ l, ls.head? = some l → isText l = false) :
    Fails (.group none (.sequence textLine)) (ended '\n' ls ++ last) := by
  have hopens := spellsLine_textLine.group.opensWith
  cases ls with
  | nil => exact hopens.fails_of_not_mem hlast
  | cons l ls =>
    rw [Text.ended_cons, List.append_assoc, List.cons_append]
    refine hopens.fails (fun htext => ?_) (hls l List.mem_cons_self) _
    rw [← isText_iff, h l rfl] at htext
    cases htext

/-- A docstring is laid out in the mentions of its lines. -/
theorem layout_found (s : FieldSort) (hlast : '\n' ∉ last) (inside : Bool)
    (hls : ∀ l ∈ ls, '\n' ∉ l) :
    Layout s.matcher (ended '\n' (if inside then ls.dropWhile isText else ls) ++ last)
      ((found s inside ls).map s.binds) := by
  induction ls generalizing inside with
  | nil =>
    have hnil : (if inside then ([] : List Text).dropWhile isText else []) = [] := ite_self _
    rw [hnil]
    refine .done (fun a b hab _ => ?_) (fails_matcher_end s)
    rw [List.append_nil]
    refine (opensWith_matcher s).fails_of_not_mem fun hmem => hlast ?_
    rw [show last = a ++ b from hab]
    exact List.mem_append_right a hmem
  | cons l ls ih =>
    obtain ⟨hl, hbelow⟩ := List.forall_mem_cons.mp hls
    cases hcontinues : inside && isText l with
    | true =>
      rw [Bool.and_eq_true] at hcontinues
      obtain ⟨rfl, htext⟩ := hcontinues
      rw [found_of_text htext, if_pos rfl, List.dropWhile_cons_of_pos htext]
      exact ih true hbelow
    | false =>
      have hlines : (if inside then (l :: ls).dropWhile isText else l :: ls) = l :: ls := by
        cases inside with
        | false => rfl
        | true =>
          rw [if_pos rfl]
          exact List.dropWhile_cons_of_neg (by simpa using hcontinues)
      rw [hlines, Text.ended_cons, List.append_assoc]
      cases hmention : mention? s l with
      | none =>
        rw [found_of_none hcontinues hmention, List.cons_append, ← List.singleton_append,
          ← List.append_assoc]
        exact (ih false hbelow).behind (passes_line hl hmention _)
      | some n =>
        obtain ⟨a, t, rfl, hfield, hfirst⟩ := exists_of_mention? hmention
        have hsplit : ls.takeWhile isText ++ ls.dropWhile isText = ls :=
          List.takeWhile_append_dropWhile
        have hfeeds : ∀ k ∈ ls.takeWhile isText ++ ls.dropWhile isText, '\n' ∉ k := by rwa [hsplit]
        rw [List.forall_mem_append] at hfeeds
        have htexts : ∀ k ∈ ls.takeWhile isText, IsText k ∧ '\n' ∉ k := fun k hk =>
          ⟨isText_iff.mp (List.mem_takeWhile_imp hk), hfeeds.1 k hk⟩
        have hbehind : Fails (.group none (.sequence textLine))
            (ended '\n' (ls.dropWhile isText) ++ last) :=
          fails_textLine_of_not_isText hfeeds.2 hlast fun k hk => by
            simpa [hk] using List.head?_dropWhile_not isText ls
        have hends : (a ++ t) ++ ('\n' :: ended '\n' ls ++ last) =
            a ++ ((t ++ '\n' :: ended '\n' (ls.takeWhile isText)) ++
              (ended '\n' (ls.dropWhile isText) ++ last)) := by
          conv_lhs => rw [← hsplit, Text.ended_append]
          simp
        rw [found_of_mention hcontinues hmention, hends]
        refine .entry ?_ (by simp) (fun st hst hgroups => ?_) (ih true hbelow)
        · rw [List.append_assoc, List.cons_append]
          exact passes_of_fieldAt? hl hfirst
        · exact matchAt_field hfield (fun hmem => hl (List.mem_append_right a hmem)) htexts hbehind
            hst hgroups

/-- The names that the search finds in a docstring are those of its mentions. -/
theorem findAll_matcher (s : FieldSort) (hls : ∀ l ∈ ls, '\n' ∉ l) (hlast : '\n' ∉ last) :
    (s.matcher.findAll (ended '\n' ls ++ last)).map (·.stop.groups) =
      (found s false ls).map s.binds :=
  findAll_layout (layout_found s hlast false hls)

end

/-! ## Docstrings of the standard form -/

section

variable {s : FieldSort} {d last : Text} {ls : List Text}

theorem not_isField_of_not_mem {l : Text} (h : ':' ∉ l) : ¬ IsField s l := by
  intro hfield
  obtain ⟨a, t, rfl, -, -⟩ := hfield
  exact h (by simp)

/-- The first line is no field, and the last line has no colon. -/
theorem HasForm.lines (h : HasForm d) : ∃ ls last, Text.splitOn '\n' d = ls ++ [last] ∧
    ':' ∉ last ∧ ∀ s l, (ls ++ [last]).head? = some l → ¬ IsField s l := by
  have hclosing : ∀ {a q : Text}, IsBlank a → IsQuote q → '\n' ∉ a ++ q ∧ ':' ∉ a ++ q := by
    intro a q ha hq
    have hblank : ∀ c ∈ a, c ≠ '\n' ∧ c ≠ ':' := fun c hc => by rw [ha c hc]; decide
    have hquote : ∀ c ∈ q, c ≠ '\n' ∧ c ≠ ':' := by rcases hq with rfl | rfl <;> simp
    have hall := List.forall_mem_append.mpr ⟨hblank, hquote⟩
    exact ⟨fun hmem => (hall _ hmem).1 rfl, fun hmem => (hall _ hmem).2 rfl⟩
  cases h with
  | oneLine a q b q' hd ha hq hb hq' =>
    obtain ⟨hfeed, hcolon⟩ := hclosing ha hq
    obtain ⟨hfeed', hcolon'⟩ := hclosing (fun c hc => absurd hc List.not_mem_nil) hq'
    have hd' : d = (a ++ q) ++ (b ++ ([] ++ q')) := by simp [hd]
    have hnot : '\n' ∉ d ∧ ':' ∉ d := by
      rw [hd']
      simp only [List.mem_append, not_or] at *
      exact ⟨⟨hfeed, fun hmem => (hb _ hmem).1 rfl, hfeed'⟩,
        hcolon, fun hmem => (hb _ hmem).2 rfl, hcolon'⟩
    refine ⟨[], d, Text.splitOn_eq_singleton hnot.1, hnot.2, fun s l hl => ?_⟩
    obtain rfl : d = l := Option.some.inj hl
    exact not_isField_of_not_mem hnot.2
  | manyLines first middle last hsplit hfirst _ hlast =>
    obtain ⟨a, q, rfl, ha, hq⟩ := hlast
    refine ⟨first :: middle, a ++ q, hsplit, (hclosing ha hq).2, fun s l hl => ?_⟩
    obtain rfl : first = l := Option.some.inj hl
    obtain ⟨a, q, r, rfl, ha, hq⟩ := hfirst
    intro h
    obtain ⟨b, t, heq, hb, -⟩ := h
    rcases hq with rfl | rfl
    · exact absurd (indentation_unique heq ha hb (by decide) (by decide)).2.1 (by decide)
    · exact absurd (indentation_unique heq ha hb (by decide) (by decide)).2.1 (by decide)

theorem found_append_of_not_mem (h : ':' ∉ last) (inside : Bool) :
    found s inside (ls ++ [last]) = found s inside ls := by
  have hmention : mention? s last = none := mention?_eq_none_of_not_mem h
  induction ls generalizing inside with
  | nil => simp [found, hmention]
  | cons l ls ih => simp only [List.cons_append, found, ih]

theorem documented_tail (h : ∀ l, ls.head? = some l → ¬ IsField s l) :
    documented s ls.tail = documented s ls := by
  cases ls with
  | nil => rfl
  | cons l ls =>
    have hnone : field? s l = none := by
      by_contra hne
      exact h l rfl (isField_iff_field?.mpr hne)
    exact (List.filterMap_cons_none hnone).symm

/-- The groups that a search through a docstring of the standard form binds. -/
theorem HasForm.findAll_matcher (h : HasForm d) (s : FieldSort) :
    (s.matcher.findAll d).map (·.stop.groups) =
      (found s false (Text.splitOn '\n' d)).map s.binds := by
  obtain ⟨ls, last, hsplit, hcolon, -⟩ := h.lines
  obtain ⟨hd, hls, hlast⟩ := Text.splitOn_eq_iff.mp hsplit
  rw [hsplit, found_append_of_not_mem hcolon]
  subst hd
  exact Standard.findAll_matcher s hls hlast

theorem HasForm.namesOf_matcher (h : HasForm d)
    (hs : ∀ n, (s.binds n).lookup Grammar.nameGroup = some n) :
    Grammar.namesOf s.matcher d = found s false (Text.splitOn '\n' d) := by
  have hnames : Grammar.namesOf s.matcher d =
      ((s.matcher.findAll d).map (·.stop.groups)).filterMap (·.lookup Grammar.nameGroup) := by
    rw [List.filterMap_map]
    rfl
  rw [hnames, h.findAll_matcher, List.filterMap_map]
  exact (List.filterMap_congr fun n _ => hs n).trans List.filterMap_some

theorem HasForm.length_matcher (h : HasForm d) (s : FieldSort) :
    (s.matcher.findAll d).length = (found s false (Text.splitOn '\n' d)).length := by
  have hlength := congrArg List.length (h.findAll_matcher s)
  rwa [List.length_map, List.length_map] at hlength

theorem HasForm.documented_tail (h : HasForm d) (s : FieldSort) :
    documented s (Text.splitOn '\n' d).tail = documented s (Text.splitOn '\n' d) := by
  obtain ⟨ls, last, hsplit, -, hhead⟩ := h.lines
  rw [hsplit]
  exact Standard.documented_tail (hhead s)

end

end Standard

namespace Grammar

open Standard

/-- In a docstring that the standard grammar accepts it finds the mentions of fields. These are the
fields at the front of the lines behind the first one if and only if no field is mentioned
elsewhere, but for the lines of text that continue a field of the same sort. -/
theorem standard_finds_iff {lib : Pattern.Library} {kind d : Text} {g : Grammar} {ls : List Text}
    (hg : compile lib kind Template.standard = .ok g) (h : g.accepts d = true)
    (hls : Text.splitOn '\n' d = ls) :
    (g.parameters d = found .params false ls ∧ g.returnCount d = (found .returns false ls).length ∧
      g.yieldCount d = (found .yields false ls).length ∧
      g.raisedNames d = found .raises false ls) ∧
    (g.parameters d = documented .params ls.tail ↔ Unmistaken .params ls) ∧
    (g.returnCount d = (documented .returns ls.tail).length ↔ Unmistaken .returns ls) ∧
    (g.yieldCount d = (documented .yields ls.tail).length ↔ Unmistaken .yields ls) ∧
    (g.raisedNames d = documented .raises ls.tail ↔ Unmistaken .raises ls) := by
  obtain rfl : g = standard := Except.ok.inj (hg.symm.trans (compile_standard lib kind))
  have hform := accepts_standard_iff.mp h
  subst hls
  have hparams : standard.parameters d = found .params false (Text.splitOn '\n' d) :=
    hform.namesOf_matcher (s := .params) fun _ => rfl
  have hraises : standard.raisedNames d = found .raises false (Text.splitOn '\n' d) :=
    hform.namesOf_matcher (s := .raises) fun _ => rfl
  have hreturns : standard.returnCount d = (found .returns false (Text.splitOn '\n' d)).length :=
    hform.length_matcher .returns
  have hyields : standard.yieldCount d = (found .yields false (Text.splitOn '\n' d)).length :=
    hform.length_matcher .yields
  refine ⟨⟨hparams, hreturns, hyields, hraises⟩, ?_, ?_, ?_, ?_⟩
  · rw [hparams, hform.documented_tail, found_eq_documented_iff]
  · rw [hreturns, hform.documented_tail, length_found_iff]
  · rw [hyields, hform.documented_tail, length_found_iff]
  · rw [hraises, hform.documented_tail, found_eq_documented_iff]

/-- A docstring that mentions a return in the explanation of a parameter, and a parameter in the
line of text behind it. -/
def crossedText : Text :=
  "\"\"\"\n    :param x: as :return:\n        of :param y: d\n    :returns: text\n    \"\"\""

/-- The return is counted twice, the parameter is found once. -/
theorem standard_finds_iff_crossed :
    compile .common "function" Template.standard = .ok standard ∧
      standard.accepts crossedText = true ∧ standard.parameters crossedText = [("x" : Text)] ∧
      Unmistaken .params (Text.splitOn '\n' crossedText) ∧
      standard.returnCount crossedText = 2 ∧
      ¬ Unmistaken .returns (Text.splitOn '\n' crossedText) := by
  have haccepts : standard.accepts crossedText = true := by decide +kernel
  have hfound : found .params false (Text.splitOn '\n' crossedText) = [("x" : Text)] ∧
      documented .params (Text.splitOn '\n' crossedText).tail = [("x" : Text)] ∧
      (found .returns false (Text.splitOn '\n' crossedText)).length = 2 ∧
      (documented .returns (Text.splitOn '\n' crossedText).tail).length = 1 := by decide +kernel
  obtain ⟨hparams, hdocumented, hreturns, hlines⟩ := hfound
  obtain ⟨⟨hparameters, hcount, -, -⟩, hparamsIff, hreturnsIff, -, -⟩ :=
    standard_finds_iff (compile_standard .common "function") haccepts rfl
  refine ⟨compile_standard .common "function", haccepts, hparameters.trans hparams,
    hparamsIff.mp ((hparameters.trans hparams).trans hdocumented.symm), hcount.trans hreturns, ?_⟩
  rw [← hreturnsIff, hcount, hreturns, hlines]
  decide

/-- A summary that mentions a parameter. -/
def proseText : Text := "\"\"\"\n    Sum, see :param x: below.\n    \"\"\""

/-- The mention is found though no line documents a parameter. -/
theorem standard_finds_prose : ∃ g, compile .common "function" Template.standard = .ok g ∧
    g.accepts proseText = true ∧ g.parameters proseText = [("x" : Text)] ∧
      documented .params (Text.splitOn '\n' proseText).tail = [] := by
  have h : standard.accepts proseText = true ∧ standard.parameters proseText = [("x" : Text)] ∧
      documented .params (Text.splitOn '\n' proseText).tail = [] := by decide +kernel
  exact ⟨standard, compile_standard .common "function", h⟩

end Grammar

end DocCoverage
