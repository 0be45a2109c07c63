import DocCoverage.Proofs.Scan.Adjacent
import DocCoverage.Proofs.Sketch.Brackets

/-!
# Defaults of parameters

A default is a word, a plain literal, a pair of brackets around defaults or a call of a word on
defaults. However deep the brackets are nested, the scanner passes over a default with its literals
and brackets as spans, so commas, colons, equals signs and stars inside them do not show: only
characters of names are left of a default.
-/
namespace DocCoverage

open Rule (standard)
open Text (joinWith)

/-- A word of letters, digits, underscores and dots. -/
structure Word where
  text : Text
  ne_nil : text ≠ []
  inName : ∀ c ∈ text, Text.InName c

/-- What stands between the quotes of a plain double-quoted literal of one line. -/
structure Quoted where
  body : Text
  ne_nil : body ≠ []
  plain : ∀ c ∈ body, c ≠ '"' ∧ c ≠ '\\' ∧ c ≠ '\n'

def Quoted.literal (l : Quoted) : Literal := .plain true l.body l.ne_nil l.plain

mutual

inductive Default where
  | word (w : Word)
  | quoted (l : Quoted)
  | group (b : Delimiter) (items : Defaults)
  | call (w : Word) (items : Defaults)

/-- Defaults with commas between them, each behind a number of spaces. -/
inductive Defaults where
  | nil
  | cons (spaces : Nat) (e : Default) (rest : Defaults)

end

mutual

def Default.text : Default → Text
  | .word w => w.text
  | .quoted l => l.literal.text
  | .group b items => b.enclose (joinWith [','] items.texts)
  | .call w items => w.text ++ Delimiter.round.enclose (joinWith [','] items.texts)

def Defaults.texts : Defaults → List Text
  | .nil => []
  | .cons n e rest => (List.replicate n ' ' ++ e.text) :: rest.texts

end

mutual

/-- How many levels of spans a default needs. -/
def Default.depth : Default → Nat
  | .word _ => 1
  | .quoted _ => 1
  | .group _ items => items.depth + 1
  | .call _ items => items.depth + 1

def Defaults.depth : Defaults → Nat
  | .nil => 0
  | .cons _ e rest => max e.depth rest.depth

end

namespace Sketch

variable {options : ScanOptions} {levels : Nat} {t : Text} {left : Text → Prop}

/-- The text has only characters of names. -/
def IsName (w : Text) : Prop := ∀ c ∈ w, Text.InName c

theorem passable_word (levels : Nat) (hexpired : options.Untimed) (w : Word) :
    Passable options (levels + 1) w.text IsName where
  slash hmem := absurd (w.inName _ hmem) (by decide)
  passes := by
    intro b o p v hkind _ houtside hend
    obtain ⟨d, v, rfl, hd⟩ := hend
    have hstays : ∀ c, Text.InName c → ∀ back t,
        (standard o.kind).ending.closes o.indent ⟨back, c :: t⟩ = false := by
      intro c hc back t
      have hclosing : c ≠ b.closing := by
        rintro rfl
        revert hc
        cases b <;> decide
      rw [hkind]
      exact b.closes_eq_false hclosing _ _ _
    obtain ⟨spans, q, w, hruns, -, hkept, hw⟩ := exists_runs_name levels v hexpired
      (by rw [hkind, b.children_eq]; exact List.Subset.refl _) hstays houtside w.inName hd
    exact ⟨w, q, ⟨spans, hruns, hkept⟩, hw⟩

theorem passable_quoted (hexpired : options.Untimed) (l : Quoted) :
    Passable options (levels + 1) l.literal.text IsName where
  slash := by
    have hbody : '\\' ∉ l.body := fun hmem => (l.plain _ hmem).2.1 rfl
    simp [Literal.text, Literal.quote, Quoted.literal, Literal.plain, Text.quoteOf, hbody]
  passes := by
    intro b o p v hkind hahead houtside _
    obtain ⟨c, a, hback, hc⟩ := hahead
    have hready : l.literal.Ready c := by
      have hall : ∀ c ∈ [' ', ',', '=', ':', '(', '[', '\x7b'], c ≠ '"' ∧ c ∉ ['\\', 'f', 'F'] :=
        Text.forall_of_all (by decide)
      exact hall c hc
    have hchild : l.literal.kind ∈ (standard o.kind).children := by
      rw [hkind, b.children_eq]
      show SpanKind.doubleString ∈ Rule.codeChildren
      decide
    obtain ⟨hplain, hdecorated⟩ := Rule.plain_of_code (k := o.kind)
      (by rw [hkind, b.children_eq]; exact List.Subset.refl _)
    have hopens : RuleTable.dispatch standard (standard o.kind)
        ⟨p.back, l.literal.text ++ v⟩ = some l.literal.kind := by
      rw [hback]
      exact Literal.dispatch_literal hchild hready
    obtain ⟨r, hr, hcovers⟩ := Literal.scanSpan_literal levels hexpired
      (Opening.inner_kind (o := o) (p := p) hplain l.literal.kind _) rfl
    obtain ⟨q, hruns⟩ := exists_runs_child (w := l.literal.text) houtside (List.cons_ne_nil _ _)
      hopens hr hcovers hdecorated
    exact ⟨[], q, ⟨_, hruns, .child rfl rfl⟩, by simp [IsName]⟩

theorem passable_enclosed (hexpired : options.Untimed) (b : Delimiter)
    (h : Passable options levels t left) : Passable options (levels + 1) (b.enclose t) IsName where
  slash := by
    have hends : '\\' ≠ b.opening ∧ '\\' ≠ b.closing := by cases b <;> decide
    simp [Delimiter.enclose, hends, h.slash]
  passes := by
    intro b' o p v hkind _ houtside _
    obtain ⟨q, hpasses⟩ := exists_passes_enclosed hexpired h hkind houtside
    exact ⟨[], q, hpasses, by simp [IsName]⟩

theorem passable_applied (hexpired : options.Untimed) (w : Word) (b : Delimiter)
    (h : Passable options levels t left) :
    Passable options (levels + 1) (w.text ++ b.enclose t) IsName where
  slash := by
    have hword : '\\' ∉ w.text := (passable_word levels hexpired w).slash
    simp [hword, (passable_enclosed hexpired b h).slash]
  passes := by
    intro b' o p v hkind hahead houtside _
    have hend : Ended (b.enclose t ++ v) := ⟨b.opening, _, rfl, by cases b <;> decide⟩
    obtain ⟨w', q, hname, hw'⟩ :=
      (passable_word levels hexpired w).passes hkind hahead houtside hend
    obtain ⟨q', henclosed⟩ := exists_passes_enclosed hexpired h hkind hname.outside
    refine ⟨w' ++ [], q', hname.trans henclosed, ?_⟩
    rwa [List.append_nil]

theorem passable_values {ts : List Text} (h : ∀ t ∈ ts, Passable options levels t fun _ => True) :
    Passable options levels (joinWith [','] ts) fun _ => True := by
  have hpieces : ∀ t ∈ ts, Passable options levels (id t) fun _ => True := h
  have hjoin := Passable.joinWith 0 hpieces
  rw [List.map_id] at hjoin
  exact hjoin.imp fun _ _ => trivial

end Sketch

open Sketch

variable {options : ScanOptions}

mutual

/-- Of a default, only characters of names are left. -/
theorem Default.passable (hexpired : options.Untimed) (e : Default) {levels : Nat}
    (hdepth : e.depth ≤ levels) : Passable options levels e.text IsName := by
  match e with
  | .word w =>
    obtain ⟨levels, rfl⟩ := Nat.exists_eq_add_of_le' hdepth
    exact passable_word levels hexpired w
  | .quoted l =>
    obtain ⟨levels, rfl⟩ := Nat.exists_eq_add_of_le' hdepth
    exact passable_quoted hexpired l
  | .group b items =>
    -- one level is for the brackets, the others are for what stands in them
    obtain ⟨levels, rfl⟩ := Nat.exists_eq_add_of_le' (Nat.le_of_add_left_le hdepth)
    have hitems := Defaults.passable hexpired items (Nat.le_of_succ_le_succ hdepth)
    exact passable_enclosed hexpired b (passable_values hitems)
  | .call w items =>
    obtain ⟨levels, rfl⟩ := Nat.exists_eq_add_of_le' (Nat.le_of_add_left_le hdepth)
    have hitems := Defaults.passable hexpired items (Nat.le_of_succ_le_succ hdepth)
    exact passable_applied hexpired w .round (passable_values hitems)

theorem Defaults.passable (hexpired : options.Untimed) (items : Defaults) {levels : Nat}
    (hdepth : items.depth ≤ levels) :
    ∀ t ∈ items.texts, Passable options levels t fun _ => True := by
  match items with
  | .nil =>
    intro t ht
    cases ht
  | .cons n e rest =>
    rw [Defaults.depth, Nat.max_le] at hdepth
    refine List.forall_mem_cons.mpr ⟨?_, Defaults.passable hexpired rest hdepth.2⟩
    exact ((Default.passable hexpired e hdepth.1).spaces n).imp fun _ _ => trivial

end

end DocCoverage
