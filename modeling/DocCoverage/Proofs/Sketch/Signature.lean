import Mathlib.Data.List.Forall2
import Mathlib.Data.List.TakeWhile
import DocCoverage.Findings
import DocCoverage.Proofs.Scan.Partition
import DocCoverage.Proofs.Sketch.Scan
import DocCoverage.Proofs.Text.Split

/-!
# What a sketch declares

The signature that is read off the function of a sketch is the declared interface: the names in
the parameter list are divided at the commas and trimmed, and the statements are counted and named
among the children.
-/
namespace DocCoverage

open Text (isAsciiWord joinWith)

namespace Text

/-- A list of names, each behind a comma and a space, is divided into the names and the spaces in
front of them. -/
theorem splitOn_joinWith {n : Text} {names : List Text} (h : ∀ m ∈ n :: names, ',' ∉ m) :
    splitOn ',' (joinWith [',', ' '] (n :: names)) = n :: names.map (' ' :: ·) := by
  induction names generalizing n with
  | nil => exact splitOn_eq_singleton (h n List.mem_cons_self)
  | cons m names ih =>
    have htail : ∀ k ∈ (' ' :: m) :: names, ',' ∉ k := by
      intro k hk
      rcases List.mem_cons.mp hk with rfl | hk
      · intro hmem
        rcases List.mem_cons.mp hmem with hmem | hmem
        · exact absurd hmem (by decide)
        · exact h m (by simp) hmem
      · exact h k (by simp [hk])
    have hjoin : joinWith [',', ' '] (n :: m :: names) =
        n ++ ',' :: joinWith [',', ' '] ((' ' :: m) :: names) := by
      cases names <;> simp [joinWith]
    rw [hjoin, splitOn_append (h n List.mem_cons_self), ih htail]
    rfl

theorem AsciiIdentifier.ne_nil {n : Text} (h : n.AsciiIdentifier) : n ≠ [] := by
  obtain ⟨c, t, hcons, -⟩ := h.first
  rw [hcons]
  exact List.cons_ne_nil c t

theorem AsciiIdentifier.notMem {n : Text} (h : n.AsciiIdentifier) {d : Char}
    (hd : isAsciiWord d = false) : d ∉ n :=
  fun hmem => ne_of_isAsciiWord (h.word d hmem) hd rfl

theorem isBlank_of_isAsciiWord {c : Char} (h : isAsciiWord c = true) : isBlank c = false := by
  have hle : '0' ≤ c := by
    simp only [isAsciiWord, isAsciiLetter, isAsciiDigit, Bool.or_eq_true, Bool.and_eq_true,
      decide_eq_true_eq, beq_iff_eq] at h
    rcases h with ((⟨h, -⟩ | ⟨h, -⟩) | ⟨h, -⟩) | rfl
    · exact Char.le_trans (by decide) h
    · exact Char.le_trans (by decide) h
    · exact h
    · decide
  have hnat : ('0').toNat ≤ c.toNat := hle
  have hzero : ('0').toNat = 48 := rfl
  have hspace : c ≠ ' ' := ne_of_isAsciiWord h (by decide)
  rw [isBlank, if_pos (isAscii_of_isAsciiWord h)]
  simp only [Bool.or_eq_false_iff, beq_eq_false_iff_ne, Bool.and_eq_false_iff,
    decide_eq_false_iff_not]
  exact ⟨hspace, Or.inr (by omega)⟩

theorem isDotted_of_isAsciiWord {c : Char} (h : isAsciiWord c = true) : isDotted c = true := by
  rw [isDotted, isIdentifier, isAlphanumeric, if_pos (isAscii_of_isAsciiWord h)]
  rw [isAsciiWord] at h
  rw [h, Bool.true_or]

theorem trimStart_eq_self {t : Text} (h : ∀ c ∈ t, isBlank c = false) : trimStart t = t := by
  cases t with
  | nil => rfl
  | cons c t =>
    rw [trimStart, List.dropWhile_cons_of_neg]
    rw [h c List.mem_cons_self]
    exact Bool.false_ne_true

theorem trimStart_spaces {g t : Text} (hg : ∀ c ∈ g, c = ' ') (ht : ∀ c ∈ t, isBlank c = false)
    (r : Text) (hne : t ≠ []) : trimStart (g ++ (t ++ r)) = t ++ r := by
  obtain ⟨c, t, rfl⟩ := List.exists_cons_of_ne_nil hne
  rw [trimStart, List.dropWhile_append_of_pos, List.cons_append, List.dropWhile_cons_of_neg]
  · rw [ht c List.mem_cons_self]
    exact Bool.false_ne_true
  · intro c hc
    rw [hg c hc]
    rfl

theorem trimEnd_spaces {g t : Text} (hg : ∀ c ∈ g, c = ' ') (ht : ∀ c ∈ t, isBlank c = false) :
    trimEnd (t ++ g) = t := by
  have hback := trimStart_eq_self (t := t.reverse) fun c hc => ht c (List.mem_reverse.mp hc)
  rw [trimStart] at hback
  rw [trimEnd, dropEndWhile, List.reverse_append, List.dropWhile_append_of_pos, hback,
    List.reverse_reverse]
  intro c hc
  rw [hg c (List.mem_reverse.mp hc)]
  rfl

/-- Up to a character that is no blank, nothing is trimmed from the end. -/
theorem trimEnd_append_cons {c : Char} (hc : isBlank c = false) (t r : Text) :
    trimEnd (t ++ c :: r) = t ++ c :: trimEnd r := by
  have hstop : (c :: t.reverse).dropWhile isBlank = c :: t.reverse :=
    List.dropWhile_cons_of_neg (by rw [hc]; exact Bool.false_ne_true)
  have hsplit : (r.reverse ++ c :: t.reverse).dropWhile isBlank =
      r.reverse.dropWhile isBlank ++ c :: t.reverse := by
    rw [List.dropWhile_append, hstop]
    split
    · rename_i hempty
      rw [List.isEmpty_iff.mp hempty]
      rfl
    · rfl
  rw [trimEnd, dropEndWhile, List.reverse_append, List.reverse_cons, List.append_assoc,
    List.singleton_append, hsplit]
  simp [trimEnd, dropEndWhile]

theorem trim_spaces {g t g' : Text} (hg : ∀ c ∈ g, c = ' ') (ht : ∀ c ∈ t, isBlank c = false)
    (hne : t ≠ []) (hg' : ∀ c ∈ g', c = ' ') : trim (g ++ (t ++ g')) = t := by
  rw [trim, trimStart_spaces hg ht g' hne, trimEnd_spaces hg' ht]

theorem AsciiIdentifier.trim_eq {n : Text} (h : n.AsciiIdentifier) : trim n = n := by
  have htrim : trim ([] ++ (n ++ [])) = n :=
    trim_spaces (by simp) (fun c hc => isBlank_of_isAsciiWord (h.word c hc)) h.ne_nil (by simp)
  rwa [List.nil_append, List.append_nil] at htrim

end Text

namespace Signature

theorem beforeDefault_append {prev : Char} {t : Text} (h : '=' ∉ t) (u : Text) :
    beforeDefault prev (t ++ u) =
      t ++ beforeDefault ((prev :: t).getLast (List.cons_ne_nil _ _)) u := by
  induction t generalizing prev with
  | nil => rfl
  | cons c t ih =>
    have hc : (c == '=') = false := by
      rw [beq_eq_false_iff_ne]
      rintro rfl
      exact h List.mem_cons_self
    rw [List.cons_append, beforeDefault, hc, ih fun hmem => h (List.mem_cons_of_mem c hmem)]
    rfl

/-- What may stand behind the name in an item: an annotation or a default behind spaces. -/
inductive Suffix : Text → Prop
  | nothing : Suffix []
  | mark {g r : Text} {c : Char} (spaces : ∀ d ∈ g, d = ' ') (mark : c = ':' ∨ c = '=') :
      Suffix (g ++ c :: r)

section

variable {n g g' r : Text}

theorem takeWhile_beforeDefault (hn : n.AsciiIdentifier) (hg : ∀ d ∈ g, d = ' ') {c : Char}
    (hc : c = ':' ∨ c = '=') :
    (beforeDefault ' ' (n ++ (g ++ c :: r))).takeWhile (· != ':') = n ++ g := by
  have hnot : ∀ d, isAsciiWord d = false → d ≠ ' ' → d ∉ n ++ g := by
    intro d hd hspace hmem
    rcases List.mem_append.mp hmem with hmem | hmem
    · exact hn.notMem hd hmem
    · exact hspace (hg d hmem)
  have hcolon : ∀ d ∈ n ++ g, (d != ':') = true := by
    intro d hd
    rw [bne_iff_ne]
    rintro rfl
    exact hnot ':' (by decide) (by decide) hd
  rw [← List.append_assoc, beforeDefault_append (hnot '=' (by decide) (by decide))]
  rcases hc with rfl | rfl
  · rw [List.takeWhile_append_of_pos hcolon]
    simp [beforeDefault]
  · -- no backslash stands in front of the equals sign
    have hlast : ((' ' :: (n ++ g)).getLast (List.cons_ne_nil _ _) != '\\') = true := by
      rw [bne_iff_ne]
      intro hlast
      have hmem := List.getLast_mem (List.cons_ne_nil ' ' (n ++ g))
      rw [hlast] at hmem
      rcases List.mem_cons.mp hmem with hmem | hmem
      · exact absurd hmem (by decide)
      · exact hnot '\\' (by decide) (by decide) hmem
    rw [beforeDefault, hlast]
    simpa using hcolon

/-- Without a colon and an equals sign, there is nothing to cut off. -/
theorem takeWhile_beforeDefault_eq_self {t : Text} (ht : '=' ∉ t) (ht' : ':' ∉ t) :
    (beforeDefault ' ' t).takeWhile (· != ':') = t := by
  have hbefore : beforeDefault ' ' (t ++ []) = t ++ _ := beforeDefault_append ht []
  rw [List.append_nil] at hbefore
  simp only [hbefore, beforeDefault, List.append_nil]
  apply List.takeWhile_eq_self_iff.mpr
  intro d hd
  rw [bne_iff_ne]
  rintro rfl
  exact ht' hd

/-- Without the annotation and the default, the name and spaces behind it are left. -/
theorem exists_takeWhile_beforeDefault (hg : ∀ d ∈ g, d = ' ') (hn : n.AsciiIdentifier)
    (hr : Suffix r) : ∃ g', (∀ d ∈ g', d = ' ') ∧
      (beforeDefault ' ' (Text.trim (g ++ (n ++ r)))).takeWhile (· != ':') = n ++ g' := by
  have hblank : ∀ c ∈ n, Text.isBlank c = false :=
    fun c hc => Text.isBlank_of_isAsciiWord (hn.word c hc)
  cases hr with
  | nothing =>
    refine ⟨[], by simp, ?_⟩
    rw [Text.trim_spaces hg hblank hn.ne_nil (by simp), List.append_nil]
    exact takeWhile_beforeDefault_eq_self (hn.notMem (by decide)) (hn.notMem (by decide))
  | @mark g' r c hg' hc =>
    have hmark : Text.isBlank c = false := by
      rcases hc with rfl | rfl <;> decide
    refine ⟨g', hg', ?_⟩
    rw [Text.trim, Text.trimStart_spaces hg hblank _ hn.ne_nil, ← List.append_assoc,
      Text.trimEnd_append_cons hmark, List.append_assoc]
    exact takeWhile_beforeDefault hn hg' hc

/-- The name in front of an annotation or a default is the name of a parameter. -/
theorem parameterName_eq (hg : ∀ d ∈ g, d = ' ') (hn : n.AsciiIdentifier) (hr : Suffix r) :
    parameterName (g ++ (n ++ r)) = some n := by
  obtain ⟨g', hg', hcut⟩ := exists_takeWhile_beforeDefault hg hn hr
  have htrim : Text.trim (n ++ g') = n := Text.trim_spaces (g := []) (by simp)
    (fun c hc => Text.isBlank_of_isAsciiWord (hn.word c hc)) hn.ne_nil hg'
  have hempty : n.isEmpty = false := List.isEmpty_eq_false_iff.mpr hn.ne_nil
  have hstar : n.contains '*' = false := by
    rw [List.contains_eq_mem, decide_eq_false_iff_not]
    exact hn.notMem (by decide)
  have hslash : (n == ("/" : Text)) = false := by
    rw [beq_eq_false_iff_ne]
    intro hs
    exact hn.notMem (d := '/') (by decide) (by rw [hs]; simp)
  simp only [parameterName, hcut, htrim, hempty, hstar, hslash, Bool.or_self, Bool.false_eq_true,
    if_false]

end

/-- A starred parameter has no name, and neither has the bare slash. -/
theorem parameterName_eq_none {g t : Text} (hg : ∀ d ∈ g, d = ' ')
    (ht : ∀ c ∈ t, Text.isBlank c = false ∧ c ≠ '=' ∧ c ≠ ':') (hnone : '*' ∈ t ∨ t = "/") :
    parameterName (g ++ t) = none := by
  have hblank : ∀ c ∈ t, Text.isBlank c = false := fun c hc => (ht c hc).1
  have hne : t ≠ [] := by
    rintro rfl
    rcases hnone with hstar | hslash
    · cases hstar
    · exact absurd hslash (by decide)
  have htrim : ∀ g : Text, (∀ d ∈ g, d = ' ') → Text.trim (g ++ t) = t := by
    intro g hg
    have htrim : Text.trim (g ++ (t ++ [])) = t := Text.trim_spaces hg hblank hne (by simp)
    rwa [List.append_nil] at htrim
  have hcut := takeWhile_beforeDefault_eq_self (t := t) (fun hmem => (ht _ hmem).2.1 rfl)
    fun hmem => (ht _ hmem).2.2 rfl
  have hself : Text.trim t = t := htrim [] (by simp)
  simp only [parameterName, htrim g hg, hcut, hself]
  rcases hnone with hstar | hslash
  · simp [hstar]
  · simp [hslash]

theorem parameterItems_eq (t : Text) :
    parameterItems ('(' :: (t ++ [')'])) = Text.splitOn ',' t := by
  have hfront : Text.dropPrefix "(" ('(' :: (t ++ [')'])) = t ++ [')'] := by
    have hdrop : Text.dropPrefix? "(" ('(' :: (t ++ [')'])) = some (t ++ [')']) := by
      rw [Text.dropPrefix?_eq_some_iff]
      simp
    rw [Text.dropPrefix, hdrop]
    rfl
  have hback : dropClosing (t ++ [')']) = t := by
    rw [dropClosing, List.reverse_append]
    exact List.reverse_reverse t
  rw [parameterItems, hfront, hback]

/-- A piece of a parameter list that has a name, or none, also behind spaces. -/
structure Piece (name? : Option Text) (w : Text) : Prop where
  comma : ',' ∉ w
  name : ∀ g : Text, (∀ c ∈ g, c = ' ') → parameterName (g ++ w) = name?

theorem Piece.comma_of_mem {names : List (Option Text)} {ws : List Text}
    (h : List.Forall₂ Piece names ws) : ∀ w ∈ ws, ',' ∉ w := by
  induction h with
  | nil => simp
  | cons hw _ ih => exact List.forall_mem_cons.mpr ⟨hw.comma, ih⟩

theorem Piece.names {names : List (Option Text)} {ws : List Text}
    (h : List.Forall₂ Piece names ws) :
    (ws.map (' ' :: ·)).filterMap parameterName = names.filterMap id := by
  induction h with
  | nil => rfl
  | @cons name? w names ws hw _ ih =>
    have hname : parameterName (' ' :: w) = name? := hw.name [' '] (by simp)
    rw [List.map_cons, List.filterMap_cons, List.filterMap_cons, hname, ih, id]

theorem filterMap_splitOn {names : List (Option Text)} {ws : List Text}
    (h : List.Forall₂ Piece names ws) :
    (Text.splitOn ',' (joinWith [',', ' '] ws)).filterMap parameterName = names.filterMap id := by
  cases h with
  | nil => rfl
  | @cons name? w names ws hw hws =>
    have hname : parameterName w = name? := hw.name [] (by simp)
    have hcomma := Piece.comma_of_mem (.cons hw hws)
    rw [Text.splitOn_joinWith hcomma, List.filterMap_cons, List.filterMap_cons, hname,
      Piece.names hws, id]

theorem filterMap_parameterItems {names : List Text} (h : ∀ n ∈ names, n.AsciiIdentifier) :
    (parameterItems ('(' :: (joinWith ", " names ++ [')']))).filterMap parameterName = names := by
  have hsep : (", " : Text) = [',', ' '] := by decide +kernel
  have hpieces : List.Forall₂ Piece (names.map some) names := by
    refine List.forall₂_map_left_iff.mpr (List.forall₂_same.mpr fun n hn => ⟨?_, fun g hg => ?_⟩)
    · exact (h n hn).notMem (by decide)
    · have hitem := parameterName_eq hg (h n hn) .nothing
      rwa [List.append_nil] at hitem
  rw [parameterItems_eq, hsep, filterMap_splitOn hpieces, List.filterMap_map]
  exact List.filterMap_some

end Signature

theorem Span.ownText_of_leaf {s : Span} (hchildren : s.children = [])
    (hstop : s.stop = s.start + Text.byteLength s.text) : s.ownText = s.text := by
  apply Span.ownText_of_kept _ hstop
  rw [hchildren]
  exact .plain _ _

namespace Sketch

/-- The name that a statement raises. -/
def raised? : Statement → Option Text
  | .raises e => some e
  | _ => none

theorem nameOf_raise {e : Text} (h : e.AsciiDotted) :
    Span.nameOf .raiseStmt (Statement.text (.raises e)) = e := by
  have hform : ("raise " : Text) = "raise" ++ [' '] := by decide +kernel
  have hdrop : Text.dropPrefix "raise" (Statement.text (.raises e)) = ' ' :: e := by
    have hsome : Text.dropPrefix? "raise" (Statement.text (.raises e)) = some (' ' :: e) := by
      rw [Text.dropPrefix?_eq_some_iff]
      exact (congrArg (· ++ e) hform).trans (List.append_assoc _ _ _)
    rw [Text.dropPrefix, hsome]
    rfl
  have hblank : ∀ c ∈ e, Text.isBlank c = false := by
    intro c hc
    rcases h.dotted c hc with hword | rfl
    · exact Text.isBlank_of_isAsciiWord hword
    · decide
  have hdotted : ∀ c ∈ e, Text.isDotted c = true := by
    intro c hc
    rcases h.dotted c hc with hword | rfl
    · exact Text.isDotted_of_isAsciiWord hword
    · decide
  have htrim : Text.trimStart (' ' :: e) = e := Text.trimStart_eq_self hblank
  show (Text.trimStart (Text.dropPrefix "raise" _)).takeWhile Text.isDotted = e
  rw [hdrop, htrim]
  exact List.takeWhile_eq_self_iff.mpr hdotted

variable {declared documented : Interface} {sts : List Statement} {spans : List Span} {n m : Nat}

theorem Holds.kinds (h : List.Forall₂ Holds sts spans) :
    spans.map Span.kind = sts.map Statement.kind := by
  induction h with
  | nil => rfl
  | cons hs _ ih => rw [List.map_cons, List.map_cons, hs.kind, ih]

theorem Holds.exists_of_mem (h : List.Forall₂ Holds sts spans) {s : Span} (hs : s ∈ spans) :
    ∃ st, Holds st s := by
  induction h with
  | nil => cases hs
  | cons head _ ih =>
    rcases List.mem_cons.mp hs with rfl | hs
    · exact ⟨_, head⟩
    · exact ih hs

theorem Holds.raisedNames (h : List.Forall₂ Holds sts spans) (hsts : ∀ st ∈ sts, st.Named) :
    (spans.filter (·.kind == .raiseStmt)).map Span.name = sts.filterMap raised? := by
  induction h with
  | nil => rfl
  | @cons st s sts spans hs _ ih =>
    have htail := ih fun d hd => hsts d (List.mem_cons_of_mem st hd)
    cases st with
    | raises e =>
      have hname : s.name = e := by
        rw [Span.name, hs.kind, hs.text]
        exact nameOf_raise (hsts _ List.mem_cons_self)
      rw [List.filter_cons_of_pos (by rw [hs.kind]; rfl), List.map_cons, hname, htail]
      rfl
    | returns =>
      rw [List.filter_cons_of_neg (by rw [hs.kind]; decide), htail]
      rfl
    | yields =>
      rw [List.filter_cons_of_neg (by rw [hs.kind]; decide), htail]
      rfl

theorem countOf_functionSpan (h : List.Forall₂ Holds declared.statements spans)
    {kind : SpanKind} (hlist : kind ≠ .bracket) (hdoc : kind ≠ .doubleDocstring) :
    Signature.countOf (functionSpan declared documented n m spans) kind =
      (declared.statements.map Statement.kind).countP (· == kind) := by
  have hlist' : ((listSpan declared n).kind == kind) = false := by
    rw [beq_eq_false_iff_ne]
    exact hlist.symm
  have hdoc' : ((docSpan declared documented m).kind == kind) = false := by
    rw [beq_eq_false_iff_ne]
    exact hdoc.symm
  rw [← Holds.kinds h, List.countP_map]
  show (listSpan declared n :: docSpan declared documented m :: spans).countP (·.kind == kind) = _
  rw [List.countP_cons, List.countP_cons, hlist', hdoc']
  rfl

theorem parameters_functionSpan (hd : declared.Named) :
    Signature.parameters (functionSpan declared documented n m spans) = declared.inputs := by
  have hown : (listSpan declared n).ownText = '(' :: (joinWith ", " declared.inputs ++ [')']) :=
    Span.ownText_of_leaf rfl rfl
  have hfind : (functionSpan declared documented n m spans).children.find? (·.kind == .bracket) =
      some (listSpan declared n) := rfl
  rw [Signature.parameters, hfind]
  show ((Signature.parameterItems (listSpan declared n).ownText).filterMap _).filter _ = _
  rw [hown, Signature.filterMap_parameterItems hd.inputs]
  exact List.filter_eq_self.mpr fun _ _ => rfl

theorem raisedNames_functionSpan (hd : declared.Named)
    (h : List.Forall₂ Holds declared.statements spans) :
    Signature.raisedNames (functionSpan declared documented n m spans) = declared.raises := by
  have hchildren : (functionSpan declared documented n m spans).children.filter
      (·.kind == .raiseStmt) = spans.filter (·.kind == .raiseStmt) := rfl
  have hnames : declared.statements.filterMap raised? = declared.raises := by
    simp [Interface.statements, raised?, List.filterMap_replicate, Function.comp_def]
  rw [Signature.raisedNames, hchildren, Holds.raisedNames h (Named.statements hd), hnames]
  apply List.filter_eq_self.mpr
  intro e he
  have hne := (hd.raises e he).ne_nil
  cases e with
  | nil => exact absurd rfl hne
  | cons c e => rfl

theorem ofSpan_functionSpan (hd : declared.Named)
    (h : List.Forall₂ Holds declared.statements spans) :
    Signature.ofSpan (functionSpan declared documented n m spans) =
      ⟨declared.inputs, declared.returns, declared.yields, declared.raises, []⟩ := by
  have hreturns : Signature.countOf (functionSpan declared documented n m spans) .returnStmt =
      declared.returns := by
    rw [countOf_functionSpan h (by decide) (by decide)]
    simp [Interface.statements, Statement.kind, List.countP_replicate, Function.comp_def]
  have hyields : Signature.countOf (functionSpan declared documented n m spans) .yieldStmt =
      declared.yields := by
    rw [countOf_functionSpan h (by decide) (by decide)]
    simp [Interface.statements, Statement.kind, List.countP_replicate, Function.comp_def]
  show (⟨Signature.parameters _, Signature.countOf _ .returnStmt, Signature.countOf _ .yieldStmt,
    Signature.raisedNames _, []⟩ : Signature) = _
  rw [parameters_functionSpan hd, hreturns, hyields, raisedNames_functionSpan hd h]

end Sketch

end DocCoverage
