import DocCoverage.Proofs.Grammar.Fields
import DocCoverage.Proofs.Scan.Runs
import DocCoverage.Proofs.Span.Kept

/-!
# Names in code

What opens inside brackets and statements, and how a dotted name in them is passed over: it may
hold an attribute of `self`, which is then a span of its own; nothing else opens in a name.
-/
namespace DocCoverage

open Text (isAsciiWord isWord)

namespace Rule

/-- The characters at which something other than an attribute of `self` opens in code. -/
def codeOpeners : List Char := ['(', '[', '\x7b', '\'', '"', '#']

theorem current_of_code {k : SpanKind} (hk : k ∈ codeChildren) (hne : k ≠ .selfAttribute) :
    ∃ d ∈ codeOpeners, (standard k).current = only d := by
  simp only [codeChildren, List.mem_cons, List.not_mem_nil, or_false] at hk
  rcases hk with rfl | rfl | rfl | rfl | rfl | rfl | rfl | rfl | rfl | rfl | rfl
  · exact ⟨'(', by decide, rfl⟩
  · exact ⟨'[', by decide, rfl⟩
  · exact ⟨'\x7b', by decide, rfl⟩
  · exact ⟨'\'', by decide, rfl⟩
  · exact ⟨'"', by decide, rfl⟩
  · exact ⟨'\'', by decide, rfl⟩
  · exact ⟨'"', by decide, rfl⟩
  · exact ⟨'\'', by decide, rfl⟩
  · exact ⟨'"', by decide, rfl⟩
  · exact ⟨'#', by decide, rfl⟩
  · exact absurd rfl hne

/-- At other characters of code only an attribute of `self` can open. -/
theorem dispatch_code {parent : Rule} (hsub : parent.children ⊆ codeChildren) {c : Char}
    (hc : c ∉ codeOpeners) {back t : Text} {k : SpanKind}
    (h : RuleTable.dispatch standard parent ⟨back, c :: t⟩ = some k) : k = .selfAttribute := by
  obtain ⟨hk, hopens⟩ := RuleTable.dispatch_eq_some h
  by_cases hne : k = .selfAttribute
  · exact hne
  · obtain ⟨d, hd, hcurrent⟩ := current_of_code (hsub hk) hne
    have hcd := (opens_cons hopens).1
    rw [hcurrent, only, beq_iff_eq] at hcd
    rw [hcd] at hc
    exact absurd hd hc

theorem dispatch_code_eq_none {parent : Rule} (hsub : parent.children ⊆ codeChildren) {c : Char}
    (hc : c ∉ codeOpeners) {back t : Text}
    (hself : (standard .selfAttribute).opens ⟨back, c :: t⟩ = false) :
    RuleTable.dispatch standard parent ⟨back, c :: t⟩ = .none := by
  cases h : RuleTable.dispatch standard parent ⟨back, c :: t⟩ with
  | none => rfl
  | some k =>
    obtain rfl := dispatch_code hsub hc h
    rw [(RuleTable.dispatch_eq_some h).2] at hself
    cases hself

theorem exists_of_word {w b rest : Text} {d : Char} (h : word w (b ++ d :: rest) = true)
    (hd : d ∉ w) : ∃ m, b = w ++ m := by
  obtain ⟨r, hr⟩ := Text.startsWith_iff.mp h
  rcases List.append_eq_append_iff.mp hr with ⟨m, rfl, hm⟩ | ⟨m, rfl, -⟩
  · cases m with
    | nil => exact ⟨[], by simp⟩
    | cons x m =>
      obtain rfl : d = x := (List.cons.inj hm).1
      exact absurd (by simp) hd
  · exact ⟨m, rfl⟩

theorem selfAttribute_opens_without_dot {back b rest : Text} {c d : Char} (hb : '.' ∉ b)
    (hd : d ∉ ['e', 'l', 'f', '.']) :
    (standard .selfAttribute).opens ⟨back, c :: (b ++ d :: rest)⟩ = false := by
  have hword : ("elf." : Text) = ['e', 'l', 'f', '.'] := by decide +kernel
  rw [Bool.eq_false_iff]
  intro hopens
  have hahead : word "elf." (b ++ d :: rest) = true := (opens_cons hopens).2.2
  rw [hword] at hahead
  obtain ⟨m, rfl⟩ := exists_of_word hahead hd
  exact hb (by simp)

theorem selfAttribute_opens_in_word {d : Char} (hd : isAsciiWord d = true) (back t : Text) :
    (standard .selfAttribute).opens ⟨d :: back, t⟩ = false := by
  rw [Bool.eq_false_iff]
  intro hopens
  cases t with
  | nil => cases hopens
  | cons c t =>
    have hbefore : nonWord d = true := (opens_cons hopens).2.1
    rw [nonWord, Text.isWord_of_isAsciiWord hd] at hbefore
    cases hbefore

theorem not_mem_codeOpeners {c : Char} (hc : isWord c = true ∨ c = '.') : c ∉ codeOpeners := by
  intro hmem
  rcases hc with hword | rfl
  · have hopeners : ∀ d ∈ codeOpeners, (!isWord d) = true := List.all_eq_true.mp (by decide)
    have hc := hopeners c hmem
    rw [hword] at hc
    cases hc
  · exact absurd hmem (by decide)

/-- Where only what may open in code can open, no definition ends the span. -/
theorem plain_of_code {k : SpanKind} (h : (standard k).children ⊆ codeChildren) :
    k ≠ .decorator ∧ (standard k).ending.isDecorated = false := by
  revert h
  cases k <;> decide

end Rule

section

open Rule (standard)

variable {options : ScanOptions} {levels : Nat} {o : Opening} {rest : Text} {d : Char}

/-- A character of a dotted name. -/
abbrev Text.InName (c : Char) : Prop := isWord c = true ∨ c = '.'

/-- A character that ends a dotted name. -/
abbrev Text.EndsName (c : Char) : Prop := isWord c = false ∧ c ≠ '.'

/-- An attribute of `self` runs to the end of the name that it starts in. -/
theorem scanSpan_selfAttribute (levels : Nat) (hexpired : options.Untimed) {c : Char}
    {e : Text} (hkind : o.kind = .selfAttribute) (htext : o.text = c :: (e ++ d :: rest))
    (hc : c.utf8Size = 1) (he : ∀ x ∈ e, Text.InName x) (hd : Text.EndsName d) :
    ∃ r, scanSpan standard options (levels + 1) o = .ok r ∧ o.Covers (c :: e) [] r := by
  have hidle : ∀ back t, RuleTable.dispatch standard (standard .selfAttribute) ⟨back, t⟩ = none :=
    fun back t => RuleTable.dispatch_eq_none fun k hk => absurd hk List.not_mem_nil
  have hquiet : ∀ x ∈ e, ∀ indent back t,
      RuleTable.Quiet standard .selfAttribute indent ⟨back, x :: t⟩ := by
    intro x hx indent back t
    refine ⟨hidle back _, ?_⟩
    show (!(x == '.') && !Text.isWord x) = false
    rcases he x hx with hword | rfl
    · rw [hword, Bool.not_true, Bool.and_false]
    · rfl
  have hfires : ∀ back, (standard .selfAttribute).ending.closes o.indent ⟨back, d :: rest⟩ =
      true := by
    intro back
    show (!(d == '.') && !Text.isWord d) = true
    rw [beq_false_of_ne hd.2, hd.1]
    rfl
  have hopened : Text.byteLength [c] = 1 := by rw [Text.byteLength_cons, hc]; rfl
  obtain ⟨kind, start, indent, text⟩ := o
  obtain rfl : kind = .selfAttribute := hkind
  have hparts : text = [c] ++ (e ++ ([] ++ d :: rest)) := htext
  obtain ⟨r, hr, hcovers⟩ := scanSpan_leaf (o := ⟨.selfAttribute, start, indent, text⟩) hexpired
    hparts hopened rfl rfl (fun a x b hx => hquiet x (by rw [hx]; simp) _ _ _) (hidle _ _)
    (hfires _) (Rule.standard_regular.resume_le _)
  rw [List.append_nil] at hcovers
  exact ⟨r, hr, hcovers⟩

/-- A dotted name in code is passed over, with at most an attribute of `self` in it. -/
theorem exists_runs_name (levels : Nat) (rest : Text) (hexpired : options.Untimed)
    (hcode : (standard o.kind).children ⊆ Rule.codeChildren)
    (hstays : ∀ c, Text.InName c → ∀ back t,
      (standard o.kind).ending.closes o.indent ⟨back, c :: t⟩ = false)
    {p : Progress} {e : Text} (houtside : ¬ p.pos < p.resumeAt) (he : ∀ x ∈ e, Text.InName x)
    (hd : Text.EndsName d) :
    ∃ spans q w, Runs standard options (levels + 1) o p e (d :: rest) spans q ∧
      (∀ s ∈ spans, s.kind = .selfAttribute ∧ s.unterminated = false ∧ s.children = []) ∧
      Kept p.pos e spans w ∧ ∀ x ∈ w, Text.InName x := by
  induction e generalizing p with
  | nil => exact ⟨[], p, [], .nil houtside, by simp, .plain p.pos [], by simp⟩
  | cons c e ih =>
    have hc := he c List.mem_cons_self
    have htail : ∀ x ∈ e, Text.InName x := fun x hx => he x (List.mem_cons_of_mem c hx)
    cases hopens : RuleTable.dispatch standard (standard o.kind)
      ⟨p.back, c :: (e ++ d :: rest)⟩ with
    | none =>
      have hstep : Runs standard options (levels + 1) o p [c] (e ++ d :: rest) [] _ :=
        .step houtside ⟨hopens, hstays c hc _ _⟩
      obtain ⟨spans, q, w, hruns, hspans, hkept, hw⟩ := ih hstep.outside htail
      refine ⟨spans, q, c :: w, hstep.trans hruns, hspans, ?_, List.forall_mem_cons.mpr ⟨hc, hw⟩⟩
      rw [hstep.pos] at hkept
      exact .append (.plain p.pos [c]) hkept
    | some k =>
      obtain rfl := Rule.dispatch_code hcode (Rule.not_mem_codeOpeners hc) hopens
      obtain ⟨hplain, hdecorated⟩ := Rule.plain_of_code hcode
      have hs : c = 's' := eq_of_beq (Rule.opens_cons (RuleTable.dispatch_eq_some hopens).2).1
      have hinner : (o.inner p .selfAttribute (c :: (e ++ d :: rest))).kind = .selfAttribute :=
        Opening.inner_kind hplain _ _
      obtain ⟨r, hr, hcovers⟩ := scanSpan_selfAttribute levels hexpired hinner rfl
        (by rw [hs]; rfl) htail hd
      obtain ⟨q, hruns⟩ := exists_runs_child (w := c :: e) houtside (List.cons_ne_nil c e) hopens hr
        hcovers hdecorated
      refine ⟨_, q, [], hruns, ?_, .child rfl rfl, by simp⟩
      intro s hs
      rw [List.mem_singleton.mp hs]
      exact ⟨hinner, rfl, rfl⟩

end

end DocCoverage
