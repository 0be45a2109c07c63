import Mathlib.Data.List.Chain
import DocCoverage.Proofs.Scan.Openers
import DocCoverage.Proofs.Sketch.Header

/-!
# Lambdas as defaults and as attributes

What a lambda declares where it does not belong: as the default of a parameter and as the value of
a class attribute. The pieces of a parameter list are divided at commas, so of a lambda in a default
every parameter but the first is taken for a parameter of the function. In a class only the name at
the head of the line is an attribute, whatever the lambda takes.
-/
namespace DocCoverage

open Rule (standard)
open Text (isAsciiWord isWord joinWith)

/-- A lambda with the given parameters and a name as its value. -/
def lambda (xs : List Text) (e : Text) : Text := "lambda " ++ joinWith ", " xs ++ ": " ++ e

def lambdaDefault (k : Text) (xs : List Text) (e : Text) : Text :=
  "def f(" ++ k ++ "=" ++ lambda xs e ++ "):\n    pass\n"

def lambdaAttribute (k : Text) (xs : List Text) (e : Text) : Text :=
  "class A:\n    " ++ k ++ " = " ++ lambda xs e ++ "\n"

namespace Lambda

open Sketch (isListed)

variable {k e : Text} {xs : List Text}

/-! ## The default of a parameter -/

/-- What stands behind the first parameter. -/
def behind (e : Text) : List Text → Text
  | [] => ':' :: ' ' :: e
  | x :: xs => ',' :: ' ' :: (x ++ behind e xs)

theorem joinWith_behind (x : Text) (xs : List Text) (e : Text) :
    joinWith [',', ' '] (x :: xs) ++ ':' :: ' ' :: e = x ++ behind e xs := by
  induction xs generalizing x with
  | nil => rfl
  | cons y xs ih =>
    have hjoin : joinWith [',', ' '] (x :: y :: xs) =
        x ++ ',' :: ' ' :: joinWith [',', ' '] (y :: xs) := by
      simp [joinWith]
    rw [hjoin, behind, ← ih y]
    simp

theorem lambda_eq (x : Text) (xs : List Text) (e : Text) :
    lambda (x :: xs) e = ['l', 'a', 'm', 'b', 'd', 'a', ' '] ++ (x ++ behind e xs) := by
  unfold lambda
  simp only [String.reduceToList, ← joinWith_behind, List.append_assoc, List.cons_append,
    List.nil_append]

/-- Behind an item that has a name, also with the end of a lambda behind it, every parameter of the
lambda is a name of its own. -/
theorem names_behind {front n : Text} (hcomma : ',' ∉ front)
    (hname : Signature.parameterName front = some n)
    (hlast : Signature.parameterName (front ++ ':' :: ' ' :: e) = some n)
    (he : e.AsciiIdentifier) (hxs : ∀ x ∈ xs, x.AsciiIdentifier) :
    (Text.splitOn ',' (front ++ behind e xs)).filterMap Signature.parameterName = n :: xs := by
  induction xs generalizing front n with
  | nil =>
    have hlast' : ',' ∉ e := he.notMem (by decide)
    have hwhole : ',' ∉ front ++ ':' :: ' ' :: e := by simp [hcomma, hlast']
    rw [behind, Text.splitOn_eq_singleton hwhole, List.filterMap_cons_some hlast,
      List.filterMap_nil]
  | cons x xs ih =>
    have hx := hxs x List.mem_cons_self
    have hspace : ∀ d ∈ [' '], d = ' ' := by simp
    have hcomma' : ',' ∉ [' '] ++ x := by simp [hx.notMem (d := ',') (by decide)]
    have hname' : Signature.parameterName ([' '] ++ x) = some x := by
      have hitem := Signature.parameterName_eq hspace hx .nothing
      rwa [List.append_nil] at hitem
    have hlast' : Signature.parameterName (([' '] ++ x) ++ ':' :: ' ' :: e) = some x := by
      rw [List.append_assoc]
      exact Signature.parameterName_eq hspace hx (.mark (g := []) (by simp) (Or.inl rfl))
    rw [behind, Text.splitOn_append hcomma, List.filterMap_cons_some hname]
    exact congrArg (n :: ·) (ih hcomma' hname' hlast' fun y hy => hxs y (List.mem_cons_of_mem x hy))

/-- The parameters that are read off a lambda as a default. -/
theorem filterMap_default (hk : k.AsciiIdentifier) (he : e.AsciiIdentifier) {x : Text}
    (hxs : ∀ y ∈ x :: xs, y.AsciiIdentifier) :
    (Text.splitOn ',' (k ++ '=' :: lambda (x :: xs) e)).filterMap Signature.parameterName =
      k :: xs := by
  have hsplit : k ++ '=' :: lambda (x :: xs) e =
      (k ++ '=' :: (['l', 'a', 'm', 'b', 'd', 'a', ' '] ++ x)) ++ behind e xs := by
    rw [lambda_eq]
    simp
  have hname : ∀ r : Text, Signature.parameterName (k ++ '=' :: r) = some k := fun r =>
    Signature.parameterName_eq (g := []) (by simp) hk (.mark (g := []) (by simp) (Or.inr rfl))
  rw [hsplit]
  refine names_behind ?_ (hname _) ?_ he fun y hy => hxs y (List.mem_cons_of_mem x hy)
  · have hcomma : ∀ n : Text, n.AsciiIdentifier → ',' ∉ n := fun n hn => hn.notMem (by decide)
    simp [hcomma k hk, hcomma x (hxs x List.mem_cons_self)]
  · rw [List.append_assoc, List.cons_append]
    exact hname _

theorem isListed_of_identifier (h : k.AsciiIdentifier) : ∀ c ∈ k, isListed c = true :=
  fun c hc => Sketch.isListed_of_isAsciiWord (h.word c hc)

theorem isListed_behind (he : e.AsciiIdentifier) (hxs : ∀ x ∈ xs, x.AsciiIdentifier) :
    ∀ c ∈ behind e xs, isListed c = true := by
  induction xs with
  | nil =>
    intro c hc
    rcases List.mem_cons.mp hc with rfl | hc
    · rfl
    · rcases List.mem_cons.mp hc with rfl | hc
      · rfl
      · exact isListed_of_identifier he c hc
  | cons x xs ih =>
    intro c hc
    rcases List.mem_cons.mp hc with rfl | hc
    · rfl
    · rcases List.mem_cons.mp hc with rfl | hc
      · rfl
      · rcases List.mem_append.mp hc with hc | hc
        · exact isListed_of_identifier (hxs x List.mem_cons_self) c hc
        · exact ih (fun y hy => hxs y (List.mem_cons_of_mem x hy)) c hc

theorem isListed_lambda (he : e.AsciiIdentifier) (hxs : ∀ x ∈ xs, x.AsciiIdentifier)
    (hne : xs ≠ []) : ∀ c ∈ lambda xs e, isListed c = true := by
  obtain ⟨x, xs, rfl⟩ := List.exists_cons_of_ne_nil hne
  have hword : ∀ c ∈ ['l', 'a', 'm', 'b', 'd', 'a', ' '], isListed c = true :=
    List.all_eq_true.mp rfl
  intro c hc
  rw [lambda_eq] at hc
  rcases List.mem_append.mp hc with hc | hc
  · exact hword c hc
  · rcases List.mem_append.mp hc with hc | hc
    · exact isListed_of_identifier (hxs x List.mem_cons_self) c hc
    · exact isListed_behind he (fun y hy => hxs y (List.mem_cons_of_mem x hy)) c hc

theorem lambdaDefault_eq (k : Text) (xs : List Text) (e : Text) :
    lambdaDefault k xs e = headed (k ++ '=' :: lambda xs e) := by
  unfold lambdaDefault headed
  simp only [String.reduceToList, List.append_assoc, List.cons_append, List.nil_append]

variable {options : ScanOptions}

theorem exists_scan_default (hexpired : options.Untimed) (hdepth : 2 ≤ options.maxDepth)
    (hk : k.AsciiIdentifier) (hxs : ∀ x ∈ xs, x.AsciiIdentifier) (hne : xs ≠ [])
    (he : e.AsciiIdentifier) :
    ∃ tree s, scan options (lambdaDefault k xs e) = .ok tree ∧ tree.children = [s] ∧
      s.kind = .function ∧ (Signature.ofSpan s).inputs = k :: xs.tail := by
  obtain ⟨levels, hlevels⟩ := Nat.exists_eq_add_of_le' hdepth
  have hlisted : ∀ c ∈ k ++ '=' :: lambda xs e, isListed c = true := by
    intro c hc
    rcases List.mem_append.mp hc with hc | hc
    · exact isListed_of_identifier hk c hc
    · rcases List.mem_cons.mp hc with rfl | hc
      · rfl
      · exact isListed_lambda he hxs hne c hc
  obtain ⟨x, xs, rfl⟩ := List.exists_cons_of_ne_nil hne
  rw [lambdaDefault_eq]
  exact Sketch.exists_scan_headed hexpired hlevels
    (Sketch.passable_of_isListed hlisted (filterMap_default hk he hxs))

/-! ## The value of a class attribute -/

/-- A space does not stand behind the end of `def` or `class`. -/
def Apart (c d : Char) : Prop := d = ' ' → c ≠ 's' ∧ c ≠ 'f'

theorem isChain_of_identifier (h : k.AsciiIdentifier) : k.IsChain Apart := by
  apply List.Pairwise.isChain
  apply List.pairwise_of_forall_mem_list
  intro c _ d hd hspace
  rw [hspace] at hd
  exact absurd (h.word ' ' hd) (by decide)

/-- An identifier may follow anything. -/
theorem isChain_append_identifier {t : Text} (ht : t.IsChain Apart) (h : k.AsciiIdentifier) :
    (t ++ k).IsChain Apart := by
  refine ht.append (isChain_of_identifier h) fun c _ d hd hspace => ?_
  rw [hspace] at hd
  exact absurd (h.word ' ' (List.mem_of_head? hd)) (by decide)

theorem isChain_behind (he : e.AsciiIdentifier) (hxs : ∀ x ∈ xs, x.AsciiIdentifier) :
    (behind e xs).IsChain Apart := by
  induction xs with
  | nil => exact isChain_append_identifier (t := [':', ' ']) (by simp [Apart]) he
  | cons x xs ih =>
    have hfront : ([',', ' '] ++ x).IsChain Apart :=
      isChain_append_identifier (by simp [Apart]) (hxs x List.mem_cons_self)
    refine hfront.append (ih fun y hy => hxs y (List.mem_cons_of_mem x hy))
      fun c _ d hd hspace => ?_
    rw [hspace] at hd
    cases xs <;> cases hd

theorem isChain_lambda (he : e.AsciiIdentifier) (hxs : ∀ x ∈ xs, x.AsciiIdentifier)
    (hne : xs ≠ []) : ([' ', '=', ' '] ++ lambda xs e).IsChain Apart := by
  obtain ⟨x, xs, rfl⟩ := List.exists_cons_of_ne_nil hne
  rw [lambda_eq, ← List.append_assoc, ← List.append_assoc]
  have hfront : (([' ', '=', ' '] ++ ['l', 'a', 'm', 'b', 'd', 'a', ' ']) ++ x).IsChain Apart :=
    isChain_append_identifier (by simp [Apart]) (hxs x List.mem_cons_self)
  refine hfront.append (isChain_behind he fun y hy => hxs y (List.mem_cons_of_mem x hy))
    fun c _ d hd hspace => ?_
  rw [hspace] at hd
  cases xs <;> cases hd

/-- A class attribute apart, nothing opens in a class at a character of a listing that does not
start the keyword of a definition or an attribute of `self`. -/
theorem class_child_opens {j : SpanKind} (hj : j ∈ (standard .classDef).children)
    (hattribute : j ≠ .classAttribute) {back t : Text} {c : Char} (hc : isListed c = true)
    (hclass : c = 'c' → Rule.word "lass " t = false) (hdef : c = 'd' → Rule.word "ef " t = false)
    (hself : (standard .selfAttribute).opens ⟨back, c :: t⟩ = false) :
    (standard j).opens ⟨back, c :: t⟩ = false := by
  have hkinds : ∀ j ∈ (standard .classDef).children, j ≠ .selfAttribute → j ≠ .classAttribute →
      j ∈ Rule.codeChildren ∨ j ∈ [.classDef, .method, .decorator, .decoratorArgument] := by
    decide
  by_cases hs : j = .selfAttribute
  · rw [hs]
    exact hself
  · rw [Bool.eq_false_iff]
    intro hopens
    obtain ⟨hcurrent, -, hahead⟩ := Rule.opens_cons hopens
    rcases hkinds j hj hs hattribute with hcode | hother
    · obtain ⟨d, hd, hrule⟩ := Rule.current_of_code hcode hs
      rw [hrule] at hcurrent
      rw [← show c = d from eq_of_beq hcurrent] at hd
      exact Sketch.not_mem_codeOpeners hc hd
    · have hat : c ≠ '@' := Sketch.ne_of_isListed hc (by decide)
      simp only [List.mem_cons, List.not_mem_nil, or_false] at hother
      rcases hother with rfl | rfl | rfl | rfl
      · exact Bool.false_ne_true ((hclass (eq_of_beq hcurrent)).symm.trans hahead)
      · exact Bool.false_ne_true ((hdef (eq_of_beq hcurrent)).symm.trans hahead)
      · exact hat (eq_of_beq hcurrent)
      · exact hat (eq_of_beq hcurrent)

/-- Something other than spaces stands between the start of the line and the cursor. -/
def Inside (back : Text) : Prop := ∃ a c b, back = a ++ c :: b ∧ '\n' ∉ a ∧ c ≠ '\n' ∧ c ≠ ' '

theorem Inside.append {back : Text} (h : Inside back) {a : Text} (ha : '\n' ∉ a) :
    Inside (a ++ back) := by
  obtain ⟨a', c, b, rfl, ha', hc⟩ := h
  exact ⟨a ++ a', c, b, (List.append_assoc ..).symm, by simp [ha, ha'], hc⟩

theorem Inside.atLineHead {back : Text} (h : Inside back) (t : Text) :
    Cursor.atLineHead ⟨back, t⟩ = false := by
  obtain ⟨a, c, b, rfl, ha, hfeed, hspace⟩ := h
  have hfront : (a ++ c :: b).takeWhile (· != '\n') = a ++ c :: b.takeWhile (· != '\n') := by
    rw [List.takeWhile_append_of_pos, List.takeWhile_cons_of_pos]
    · exact bne_iff_ne.mpr hfeed
    · intro d hd
      exact bne_iff_ne.mpr fun hd' => ha (hd' ▸ hd)
  rw [Cursor.atLineHead, hfront, List.all_eq_false]
  exact ⟨c, by simp, by simpa using hspace⟩

variable {levels : Nat} {o : Opening} {p : Progress} {rest : Text}

theorem exists_runs_line (hkind : o.kind = .classDef) (houtside : ¬ p.pos < p.resumeAt)
    (hinside : Inside p.back) {u : Text} (hu : ∀ c ∈ u, isListed c = true)
    (hclass : ∀ a b, u = a ++ 'c' :: b → Rule.word "lass " (b ++ '\n' :: rest) = false)
    (hdef : ∀ a b, u = a ++ 'd' :: b → Rule.word "ef " (b ++ '\n' :: rest) = false) :
    ∃ q, Runs standard options levels o p u ('\n' :: rest) [] q := by
  refine exists_runs_quiet houtside fun a c b hsplit => ?_
  have hlisted : ∀ d ∈ a ++ c :: b, isListed d = true := hsplit ▸ hu
  have hc : isListed c = true := hlisted c (by simp)
  have hne : ∀ d ∈ a ++ c :: b, ∀ x, isListed x = false → d ≠ x :=
    fun d hd x hx => Sketch.ne_of_isListed (hlisted d hd) hx
  have hdot : '.' ∉ b := fun hmem => hne '.' (by simp [hmem]) '.' (by decide) rfl
  have hfeed : '\n' ∉ a.reverse := fun hmem => hne '\n' (by simp_all) '\n' (by decide) rfl
  rw [hkind]
  constructor
  · refine RuleTable.dispatch_eq_none fun j hj => ?_
    by_cases hattribute : j = .classAttribute
    · -- an attribute opens at the head of a line only
      rw [hattribute, Rule.opens, (hinside.append hfeed).atLineHead]
      exact Bool.and_false _
    · refine class_child_opens hj hattribute hc ?_ ?_
        (Rule.selfAttribute_opens_without_dot hdot (by decide))
      · rintro rfl
        exact hclass a b hsplit
      · rintro rfl
        exact hdef a b hsplit
  · rw [Sketch.definition_closes rfl]
    exact Sketch.dedents_eq_false (hne c (by simp) '\n' (by decide)) _ _ _

/-- In a text whose spaces stand apart from keywords, no keyword of a definition is found. -/
theorem word_of_isChain {u a b w : Text} {c s : Char} (hu : u.IsChain Apart)
    (hsplit : u = a ++ c :: b) (hs : s = 's' ∨ s = 'f') (hfeed : '\n' ∉ w ++ [s, ' ']) :
    Rule.word (w ++ [s, ' ']) (b ++ '\n' :: rest) = false := by
  rw [Bool.eq_false_iff]
  intro hword
  obtain ⟨m, rfl⟩ := Rule.exists_of_word hword hfeed
  have hchain : ((a ++ c :: w) ++ s :: ' ' :: m).IsChain Apart := by
    rw [hsplit] at hu
    simpa using hu
  have hapart : Apart s ' ' := (List.isChain_append_cons_cons.mp hchain).2.1
  rcases hs with rfl | rfl
  · exact (hapart rfl).1 rfl
  · exact (hapart rfl).2 rfl

/-- A keyword with a space behind it is not found in front of the space behind another name. -/
theorem word_of_ne {c : Char} {t w : Text} (ht : ' ' ∉ t) (hw : ' ' ∉ w) (hne : c :: t ≠ c :: w) :
    Rule.word (w ++ [' ']) (t ++ ' ' :: rest) = false := by
  have hspace : ∀ u : Text, ' ' ∉ u → ∀ d ∈ u, (d != ' ') = true :=
    fun u hu d hd => bne_iff_ne.mpr fun heq => hu (heq ▸ hd)
  rw [Bool.eq_false_iff]
  intro hword
  obtain ⟨r, hr⟩ := Text.startsWith_iff.mp hword
  rw [List.append_assoc] at hr
  obtain ⟨rfl, -⟩ := Text.span_unique hr (hspace t ht) (hspace w hw)
    (Standard.head_eq rfl) (Standard.head_eq rfl)
  exact hne rfl

/-- An attribute opens at a name at the head of a line that a value is assigned to. -/
theorem attribute_opens {c : Char} {t : Text} (hk : Text.AsciiIdentifier (c :: t)) {back : Text}
    (hhead : Cursor.atLineHead ⟨' ' :: back, []⟩ = true) :
    (standard .classAttribute).opens ⟨' ' :: back, c :: t ++ ' ' :: '=' :: ' ' :: rest⟩ = true := by
  have hword : ∀ d ∈ c :: t, isWord d = true :=
    fun d hd => Text.isWord_of_isAsciiWord (hk.word d hd)
  have hspan : (t ++ ' ' :: '=' :: ' ' :: rest).dropWhile isWord = ' ' :: '=' :: ' ' :: rest := by
    rw [List.dropWhile_append_of_pos fun d hd => hword d (List.mem_cons_of_mem c hd)]
    rfl
  have hassigns : Rule.assignment (t ++ ' ' :: '=' :: ' ' :: rest) = true := by
    rw [Rule.assignment, hspan]
    rfl
  show (isWord c && Rule.nonWord ' ' && Rule.assignment (t ++ ' ' :: '=' :: ' ' :: rest) &&
    (!true || Cursor.atLineHead ⟨' ' :: back, []⟩)) = true
  rw [hword c List.mem_cons_self, hassigns, hhead]
  decide

/-- Nothing else opens there, unless the name is the keyword of a definition. -/
theorem dispatch_attribute (hk : k.AsciiIdentifier) (hclass : k ≠ ['c', 'l', 'a', 's', 's'])
    (hdef : k ≠ ['d', 'e', 'f']) {back : Text}
    (hhead : Cursor.atLineHead ⟨' ' :: back, []⟩ = true) :
    RuleTable.dispatch standard (standard .classDef)
      ⟨' ' :: back, k ++ ' ' :: '=' :: ' ' :: rest⟩ = some .classAttribute := by
  obtain ⟨c, t, rfl, -⟩ := hk.first
  have hnot : ∀ d, isAsciiWord d = false → d ∉ t := fun d hd hmem =>
    Text.ne_of_isAsciiWord (hk.word d (List.mem_cons_of_mem c hmem)) hd rfl
  refine RuleTable.dispatch_of_first (by decide) (attribute_opens hk hhead) fun j hj hmem => ?_
  have hattribute : j ≠ .classAttribute := by
    rintro rfl
    exact absurd hj (by decide)
  refine class_child_opens hmem hattribute (isListed_of_identifier hk c List.mem_cons_self) ?_ ?_
    (Rule.selfAttribute_opens_without_dot (hnot '.' (by decide)) (by decide))
  · rintro rfl
    exact word_of_ne (w := ['l', 'a', 's', 's']) (hnot ' ' (by decide)) (by decide) hclass
  · rintro rfl
    exact word_of_ne (w := ['e', 'f']) (hnot ' ' (by decide)) (by decide) hdef

/-- An attribute covers its name. -/
theorem scanSpan_attribute (levels : Nat) (hexpired : options.Untimed)
    (hk : k.AsciiIdentifier) (hkind : o.kind = .classAttribute)
    (htext : o.text = k ++ ' ' :: rest) :
    ∃ r, scanSpan standard options (levels + 1) o = .ok r ∧ o.Covers k [] r := by
  obtain ⟨c, t, rfl, -⟩ := hk.first
  have hidle : ∀ back t, RuleTable.dispatch standard (standard .classAttribute) ⟨back, t⟩ = none :=
    fun back t => RuleTable.dispatch_eq_none fun j hj => absurd hj List.not_mem_nil
  have hopened : Text.byteLength [c] = 1 := by
    have hascii := Text.isAscii_of_isAsciiWord (hk.word c List.mem_cons_self)
    rw [Text.isAscii, decide_eq_true_eq] at hascii
    rw [Text.byteLength_cons, Text.utf8Size_eq_one_iff.mpr (by omega)]
    rfl
  have hquiet : ∀ d ∈ t, ∀ indent back r,
      RuleTable.Quiet standard .classAttribute indent ⟨back, d :: r⟩ := by
    intro d hd indent back r
    refine ⟨hidle _ _, ?_⟩
    show (!isWord d) = false
    rw [Text.isWord_of_isAsciiWord (hk.word d (List.mem_cons_of_mem c hd))]
    rfl
  obtain ⟨kind, start, indent, text⟩ := o
  obtain rfl : kind = .classAttribute := hkind
  have hparts : text = [c] ++ (t ++ ([] ++ ' ' :: rest)) := htext
  obtain ⟨r, hr, hcovers⟩ := scanSpan_leaf (o := ⟨.classAttribute, start, indent, text⟩) hexpired
    hparts hopened rfl rfl (fun a d b hsplit => hquiet d (by simp [hsplit]) _ _ _) (hidle _ _) rfl
    (Rule.standard_regular.resume_le _)
  rw [List.append_nil] at hcovers
  exact ⟨r, hr, hcovers⟩

theorem lambdaAttribute_eq (k : Text) (xs : List Text) (e : Text) : lambdaAttribute k xs e =
    'c' :: (['l', 'a', 's', 's', ' ', 'A', ':'] ++ (('\n' :: Standard.indent) ++
      (k ++ (([' ', '=', ' '] ++ lambda xs e) ++ ['\n'])))) := by
  unfold lambdaAttribute Standard.indent
  simp only [String.reduceToList, List.append_assoc, List.cons_append, List.nil_append]

theorem attributes_of_attribute {s d : Span} (hs : s.kind = .classDef)
    (hchildren : s.children = [d]) (hkind : d.kind = .classAttribute) (htext : d.text = k)
    (hleaf : d.children = []) (hk : k.AsciiIdentifier) :
    (Signature.ofSpan s).attributes = [k] := by
  have hname : d.name = k := by
    rw [Span.name, hkind, htext]
    exact hk.trim_eq
  have hsignature : Signature.ofSpan s = { attributes := Signature.attributesOf s } := by
    rw [Signature.ofSpan, hs]
    rfl
  have hmethods : s.children.flatMap Signature.methodNames = [] := by
    rw [hchildren]
    simp [Signature.methodNames, Signature.isDecorator, hkind]
  have hproperties : s.children.flatMap Signature.propertyNames = [] := by
    rw [hchildren]
    simp [Signature.propertyNames, Signature.isDecorator, hkind]
  have hself : Signature.selfNames s = [] := by
    obtain ⟨_, _, _, _, _, _, children⟩ := s
    obtain rfl : children = [d] := hchildren
    obtain ⟨kind, _, _, _, _, _, children⟩ := d
    obtain rfl : kind = .classAttribute := hkind
    obtain rfl : children = [] := hleaf
    simp [Signature.selfNames, Signature.selfNamesOf]
  have hassigned : Signature.assignedNames s = [k] := by
    rw [Signature.assignedNames, hchildren]
    simp [hkind, hname]
  obtain ⟨c, t, hcons, -⟩ := hk.first
  rw [hsignature]
  simp only [Signature.attributesOf, hmethods, hproperties, hself, hassigned]
  rw [hcons]
  rfl

theorem inside_of_identifier (hk : k.AsciiIdentifier) (back : Text) :
    Inside (k.reverse ++ back) := by
  obtain ⟨c, t, rfl, -⟩ := hk.first
  have hne : ∀ x ∈ c :: t, x ≠ '\n' ∧ x ≠ ' ' := fun x hx =>
    ⟨Text.ne_of_isAsciiWord (hk.word x hx) (by decide),
      Text.ne_of_isAsciiWord (hk.word x hx) (by decide)⟩
  refine ⟨t.reverse, c, back, by simp, ?_, hne c List.mem_cons_self⟩
  intro hmem
  exact (hne '\n' (List.mem_cons_of_mem c (List.mem_reverse.mp hmem))).1 rfl

/-- The name at the head of a line is taken up as an attribute. -/
theorem exists_runs_attribute (hexpired : options.Untimed) (hkind : o.kind = .classDef)
    (houtside : ¬ p.pos < p.resumeAt) (hk : k.AsciiIdentifier)
    (hclass : k ≠ ['c', 'l', 'a', 's', 's']) (hdef : k ≠ ['d', 'e', 'f']) {back : Text}
    (hback : p.back = ' ' :: back) (hhead : Cursor.atLineHead ⟨' ' :: back, []⟩ = true) :
    ∃ s q, Runs standard options (levels + 1) o p k (' ' :: '=' :: ' ' :: rest) [s] q ∧
      s.kind = .classAttribute ∧ s.text = k ∧ s.children = [] := by
  have hplain : o.kind ≠ .decorator := by
    rw [hkind]
    decide
  have hopens : RuleTable.dispatch standard (standard o.kind)
      ⟨p.back, k ++ ' ' :: '=' :: ' ' :: rest⟩ = some .classAttribute := by
    rw [hkind, hback]
    exact dispatch_attribute hk hclass hdef hhead
  have hinner := Opening.inner_kind (p := p) hplain .classAttribute (k ++ ' ' :: '=' :: ' ' :: rest)
  obtain ⟨r, hr, hcovers⟩ := scanSpan_attribute levels hexpired hk hinner rfl
  obtain ⟨q, hruns⟩ := exists_runs_child houtside hk.ne_nil hopens hr hcovers
    (by rw [hkind]; rfl)
  exact ⟨_, q, hruns, hinner, rfl, rfl⟩

theorem exists_runs_value (hkind : o.kind = .classDef) (houtside : ¬ p.pos < p.resumeAt)
    (hinside : Inside p.back) (hxs : ∀ x ∈ xs, x.AsciiIdentifier) (hne : xs ≠ [])
    (he : e.AsciiIdentifier) : ∃ q, Runs standard options levels o p
      ([' ', '=', ' '] ++ lambda xs e) ('\n' :: rest) [] q := by
  have hchain := isChain_lambda he hxs hne
  have hlisted : ∀ x ∈ [' ', '=', ' '] ++ lambda xs e, isListed x = true := by
    intro x hx
    have hfront : ∀ x ∈ [' ', '=', ' '], isListed x = true := List.all_eq_true.mp rfl
    rcases List.mem_append.mp hx with hx | hx
    · exact hfront x hx
    · exact isListed_lambda he hxs hne x hx
  refine exists_runs_line hkind houtside hinside hlisted ?_ ?_
  · intro a b hsplit
    exact word_of_isChain (w := ['l', 'a', 's']) hchain hsplit (Or.inl rfl) (by decide)
  · intro a b hsplit
    exact word_of_isChain (w := ['e']) hchain hsplit (Or.inr rfl) (by decide)

theorem dispatch_class (t : Text) :
    RuleTable.dispatch standard (standard .file) ⟨[], 'c' :: 'l' :: 'a' :: 's' :: 's' :: ' ' :: t⟩ =
      some .classDef := by
  have hothers : ∀ j ∈ SpanKind.priority.takeWhile (· != .classDef),
      (standard j).current 'c' = false := by decide
  apply RuleTable.dispatch_of_first (by decide)
  · have hword : Rule.word "lass " ('l' :: 'a' :: 's' :: 's' :: ' ' :: t) = true := by
      simp only [String.reduceToList]
      rfl
    show (true && true && Rule.word "lass " ('l' :: 'a' :: 's' :: 's' :: ' ' :: t) && true) = true
    rw [hword]
    rfl
  · intro j hj hmem
    exact Sketch.not_opens_of_current (hothers j hj) _ _

theorem exists_scan_attribute (hexpired : options.Untimed) (hdepth : 2 ≤ options.maxDepth)
    (hk : k.AsciiIdentifier) (hclass : k ≠ ['c', 'l', 'a', 's', 's']) (hdef : k ≠ ['d', 'e', 'f'])
    (hxs : ∀ x ∈ xs, x.AsciiIdentifier) (hne : xs ≠ []) (he : e.AsciiIdentifier) :
    ∃ tree s, scan options (lambdaAttribute k xs e) = .ok tree ∧ tree.children = [s] ∧
      s.kind = .classDef ∧ (Signature.ofSpan s).attributes = [k] := by
  obtain ⟨levels, hlevels⟩ := Nat.exists_eq_add_of_le' hdepth
  let o : Opening := ⟨.classDef, 0, 0, lambdaAttribute k xs e⟩
  have hdefinition : SpanKind.isDefinition .classDef = true := rfl
  have hbegin : Inside (o.begin ['c']).back := ⟨[], 'c', [], rfl, by simp, by decide, by decide⟩
  obtain ⟨q₁, h₁⟩ : ∃ q₁, Runs standard options (levels + 1) o (o.begin ['c'])
      ['l', 'a', 's', 's', ' ', 'A', ':'] (('\n' :: Standard.indent) ++
        (k ++ (([' ', '=', ' '] ++ lambda xs e) ++ ['\n']))) [] q₁ := by
    have hword : ∀ c ∈ ['c', 'd'], c ∉ ['l', 'a', 's', 's', ' ', 'A', ':'] :=
      Text.forall_of_all (by decide)
    refine exists_runs_line rfl (Nat.not_lt_zero _) hbegin (List.all_eq_true.mp rfl) ?_ ?_
    · intro a b hsplit
      exact absurd (by simp [hsplit]) (hword 'c' (by simp))
    · intro a b hsplit
      exact absurd (by simp [hsplit]) (hword 'd' (by simp))
  obtain ⟨q₂, h₂⟩ : ∃ q₂, Runs standard options (levels + 1) o q₁ ('\n' :: Standard.indent)
      (k ++ (([' ', '=', ' '] ++ lambda xs e) ++ ['\n'])) [] q₂ :=
    Sketch.exists_runs_feed hdefinition rfl rfl h₁.outside
  obtain ⟨d, q₃, h₃, hkind, htext, hleaf⟩ : ∃ d q₃, Runs standard options (levels + 1) o q₂ k
      (([' ', '=', ' '] ++ lambda xs e) ++ ['\n']) [d] q₃ ∧ d.kind = .classAttribute ∧
        d.text = k ∧ d.children = [] :=
    exists_runs_attribute hexpired rfl h₂.outside hk hclass hdef h₂.back rfl
  obtain ⟨q₄, h₄⟩ : ∃ q₄, Runs standard options (levels + 1) o q₃ ([' ', '=', ' '] ++ lambda xs e)
      ['\n'] [] q₄ :=
    exists_runs_value rfl h₃.outside (h₃.back ▸ inside_of_identifier hk _) hxs hne he
  have h₅ : Runs standard options (levels + 1) o q₄ ['\n'] [] [] _ :=
    .step h₄.outside (Sketch.quiet_lastFeed hdefinition _)
  have hruns := (((h₁.trans h₂).trans h₃).trans h₄).trans h₅
  have hparts : o.text = ['c'] ++ (((((['l', 'a', 's', 's', ' ', 'A', ':'] ++
      ('\n' :: Standard.indent)) ++ k) ++ ([' ', '=', ' '] ++ lambda xs e)) ++ ['\n'])) := by
    show lambdaAttribute k xs e = _
    rw [lambdaAttribute_eq]
    simp only [List.append_assoc, List.cons_append, List.nil_append]
  obtain ⟨r, hr, hcovers⟩ := scanSpan_ends hexpired hparts rfl rfl hruns
  rw [← hparts] at hcovers
  have hopens : RuleTable.dispatch standard (standard .file) ⟨[], lambdaAttribute k xs e⟩ =
      some .classDef := by
    rw [lambdaAttribute_eq]
    exact dispatch_class _
  have hcontents : lambdaAttribute k xs e ≠ [] := by
    rw [lambdaAttribute_eq]
    exact List.cons_ne_nil _ _
  exact ⟨_, _, scan_definition hexpired hcontents hopens ⟨r, by rw [hlevels]; exact hr, hcovers⟩,
    rfl, rfl, attributes_of_attribute rfl rfl hkind htext hleaf hk⟩

end Lambda

/-- Of the parameters of a lambda, a default declares all but the first; a class attribute declares
none of them. -/
theorem lambda_parameters {options : ScanOptions} (hexpired : options.Untimed)
    (hdepth : 2 ≤ options.maxDepth) {k e : Text} {xs : List Text} (hk : k.AsciiIdentifier)
    (hclass : k ≠ "class") (hdef : k ≠ "def") (hxs : ∀ x ∈ xs, x.AsciiIdentifier) (hne : xs ≠ [])
    (he : e.AsciiIdentifier) :
    (∃ tree s, scan options (lambdaDefault k xs e) = .ok tree ∧ tree.children = [s] ∧
      s.kind = .function ∧ (Signature.ofSpan s).inputs = k :: xs.tail) ∧
    ∃ tree s, scan options (lambdaAttribute k xs e) = .ok tree ∧ tree.children = [s] ∧
      s.kind = .classDef ∧ (Signature.ofSpan s).attributes = [k] := by
  simp only [String.reduceToList, ne_eq] at hclass hdef
  exact ⟨Lambda.exists_scan_default hexpired hdepth hk hxs hne he,
    Lambda.exists_scan_attribute hexpired hdepth hk hclass hdef hxs hne he⟩

theorem lambda_parameters_two : ({} : ScanOptions).Untimed ∧
    2 ≤ ({} : ScanOptions).maxDepth ∧ Text.AsciiIdentifier "k" ∧ ("k" : Text) ≠ "class" ∧
    ("k" : Text) ≠ "def" ∧ (∀ x ∈ [("x" : Text), "y"], Text.AsciiIdentifier x) ∧
    [("x" : Text), "y"] ≠ [] ∧ Text.AsciiIdentifier "x" ∧
    (∃ tree s, scan {} (lambdaDefault "k" ["x", "y"] "x") = .ok tree ∧ tree.children = [s] ∧
      s.kind = .function ∧ (Signature.ofSpan s).inputs = ["k", "y"]) ∧
    ∃ tree s, scan {} (lambdaAttribute "k" ["x", "y"] "x") = .ok tree ∧ tree.children = [s] ∧
      s.kind = .classDef ∧ (Signature.ofSpan s).attributes = ["k"] :=
  have hk : Text.AsciiIdentifier "k" := by decide
  have hx : Text.AsciiIdentifier "x" := by decide
  have hxs : ∀ x ∈ [("x" : Text), "y"], Text.AsciiIdentifier x := by decide
  have hclass : ("k" : Text) ≠ "class" := by decide
  have hdef : ("k" : Text) ≠ "def" := by decide
  ⟨fun _ => rfl, by decide, hk, hclass, hdef, hxs, List.cons_ne_nil _ _, hx,
    lambda_parameters (fun _ => rfl) (by decide) hk hclass hdef hxs (List.cons_ne_nil _ _) hx⟩

/-- The second parameter of the lambda is declared as a parameter of the function. -/
theorem lambda_parameters_surface :
    lambdaDefault "k" ["x", "y"] "x" = "def f(k=lambda x, y: x):\n    pass\n" ∧
    ∃ tree s, scan {} "def f(k=lambda x, y: x):\n    pass\n" = .ok tree ∧ tree.children = [s] ∧
      (Signature.ofSpan s).inputs = ["k", "y"] ∧ (Signature.ofSpan s).inputs ≠ ["k"] := by
  have htest : (scan {} "def f(k=lambda x, y: x):\n    pass\n").toOption.any (fun tree =>
      tree.children.map (fun s => (Signature.ofSpan s).inputs) == [[("k" : Text), "y"]]) =
      true := by decide +kernel
  obtain ⟨tree, htree, htest⟩ := scan_ok_of_any htest
  obtain ⟨s, hs, hinputs⟩ := List.map_eq_singleton_iff.mp (eq_of_beq htest)
  refine ⟨by decide +kernel, tree, s, htree, hs, hinputs, ?_⟩
  rw [hinputs]
  decide

end DocCoverage
