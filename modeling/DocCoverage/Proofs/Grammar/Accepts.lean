import DocCoverage.Proofs.Grammar.Lines
import DocCoverage.Proofs.Pattern.Reaching

/-!
# What the standard grammar accepts

The standard grammar accepts the texts of the standard form and no others. Each part of the
expression spells whole lines; the parts between the first and the last line spell a summary and
then the entries of each sort, and how a text falls into these parts does not matter.
-/
namespace DocCoverage

namespace Standard

open Pattern (CharSet Expr)
open Pattern.Expr
open Text (ended isWord)

/-! ## Parts of a line -/

section

variable {u : Text}

theorem spells_char_iff {c : Char} : (char c).Spells u ↔ u = [c] := by
  constructor
  · intro h
    obtain ⟨d, rfl, hd⟩ := h
    rw [CharSet.contains_single.mp hd]
  · intro h
    exact ⟨c, h, CharSet.contains_single.mpr rfl⟩

theorem spells_letters_iff {w : Text} : (sequence (letters w)).Spells u ↔ u = w := by
  induction w generalizing u with
  | nil => exact Iff.rfl
  | cons c w ih =>
    rw [letters, List.map_cons, spells_sequence_cons]
    constructor
    · intro h
      obtain ⟨x, y, rfl, hx, hy⟩ := h
      rw [spells_char_iff.mp hx, ih.mp hy]
      rfl
    · intro h
      exact ⟨[c], w, h, spells_char_iff.mpr rfl, ih.mpr rfl⟩

theorem isBlank_iff : (∀ c ∈ u, (CharSet.single ' ').contains c = true) ↔ IsBlank u :=
  forall₂_congr fun _ _ => CharSet.contains_single

theorem spells_spaces_iff : spaces.Spells u ↔ IsBlank u :=
  spells_chars_any.trans isBlank_iff

theorem spells_gap_iff : gap.Spells u ↔ u ≠ [] ∧ IsBlank u :=
  spells_chars_plus.trans (and_congr_right fun _ => isBlank_iff)

theorem spells_lineRest_iff : lineRest.Spells u ↔ '\n' ∉ u := by
  refine spells_chars_any.trans ?_
  simp only [CharSet.contains, Bool.not_eq_true', Bool.eq_false_iff, ne_eq,
    CharSet.contains_single]
  exact ⟨fun h hmem => h _ hmem rfl, fun h c hc heq => h (heq ▸ hc)⟩

theorem spells_optionalS_iff : optionalS.Spells u ↔ u = [] ∨ u = ['s'] := by
  constructor
  · intro h
    obtain ⟨us, rfl, hus, -, hmost⟩ := h
    have hlen : us.length ≤ 1 := hmost 1 rfl
    match us, hlen with
    | [], _ => exact Or.inl rfl
    | [x], _ => exact Or.inr (by simpa using spells_char_iff.mp (hus x List.mem_cons_self))
  · intro h
    rcases h with rfl | rfl
    · exact ⟨[], rfl, by simp, Nat.zero_le _, by simp⟩
    · exact ⟨[['s']], rfl, fun x hx => spells_char_iff.mpr (List.mem_singleton.mp hx),
        Nat.zero_le _, by simp⟩

theorem spells_quotes_iff : quotes.Spells u ↔ IsQuote u :=
  or_congr spells_letters_iff spells_letters_iff

theorem contains_leading {c : Char} :
    leading.contains c = true ↔ Text.isBlank c = false ∧ c ≠ ':' := by
  have hleading : leading.contains c = !(Text.isBlank c || (CharSet.single ':').contains c) := rfl
  rw [hleading, Bool.not_eq_true', Bool.or_eq_false_iff, ← Bool.not_eq_true, ← Bool.not_eq_true,
    CharSet.contains_single, Bool.not_eq_true]

end

/-! ## Whole lines -/

/-- An expression spells lines with a line feed behind each, and which lists of lines it spells. -/
def SpellsLines (e : Expr) (p : List Text → Prop) : Prop :=
  ∀ u, e.Spells u ↔ ∃ ls, (p ls ∧ ∀ l ∈ ls, '\n' ∉ l) ∧ u = ended '\n' ls

/-- An expression spells single lines of a class. -/
def SpellsLine (e : Expr) (p : Text → Prop) : Prop :=
  ∀ u, e.Spells u ↔ ∃ l, (p l ∧ '\n' ∉ l) ∧ u = l ++ ['\n']

theorem not_mem_of_isBlank {l : Text} (h : IsBlank l) : '\n' ∉ l :=
  fun hmem => absurd (h _ hmem) (by decide)

theorem spellsLine_blankLine : SpellsLine (.sequence blankLine) IsBlank := by
  intro u
  rw [blankLine, spells_sequence_cons]
  constructor
  · intro h
    obtain ⟨l, y, rfl, hl, hy⟩ := h
    rw [spells_spaces_iff] at hl
    rw [Expr.sequence, List.foldl_nil, spells_char_iff] at hy
    exact ⟨l, ⟨hl, not_mem_of_isBlank hl⟩, by rw [hy]⟩
  · intro h
    obtain ⟨l, ⟨hl, -⟩, rfl⟩ := h
    exact ⟨l, ['\n'], rfl, spells_spaces_iff.mpr hl, spells_char_iff.mpr rfl⟩

theorem spellsLine_textLine : SpellsLine (.sequence textLine) IsText := by
  intro u
  simp only [textLine, spells_sequence_cons, spells_spaces_iff, spells_lineRest_iff]
  constructor
  · intro h
    obtain ⟨a, _, rfl, ha, _, _, rfl, ⟨c, rfl, hc⟩, b, _, rfl, hb, x, y, rfl, hx, hy⟩ := h
    rw [spells_char_iff] at hx
    rw [show y = [] from hy, hx]
    obtain ⟨hblank, hcolon⟩ := contains_leading.mp hc
    refine ⟨a ++ c :: b, ⟨⟨a, c, b, rfl, ha, hblank, hcolon⟩, ?_⟩, by simp⟩
    have hfeed : '\n' ≠ c := by
      rintro rfl
      cases hblank
    simp [not_mem_of_isBlank ha, hfeed, hb]
  · intro h
    obtain ⟨_, ⟨⟨a, c, b, rfl, ha, hblank, hcolon⟩, hfeed⟩, rfl⟩ := h
    refine ⟨a, c :: b ++ ['\n'], by simp, ha, [c], b ++ ['\n'], rfl, ⟨c, rfl, ?_⟩, b, ['\n'], rfl,
      ?_, ['\n'], [], rfl, spells_char_iff.mpr rfl, rfl⟩
    · exact contains_leading.mpr ⟨hblank, hcolon⟩
    · exact fun hmem => hfeed (by simp [hmem])

theorem SpellsLine.group {e : Expr} {p : Text → Prop} (h : SpellsLine e p) :
    SpellsLine (.group none e) p := h

theorem SpellsLine.alt {e f : Expr} {p q : Text → Prop} (he : SpellsLine e p)
    (hf : SpellsLine f q) : SpellsLine (.alt e f) fun l => p l ∨ q l := by
  intro u
  rw [Expr.Spells, he u, hf u, ← exists_or]
  simp only [or_and_right]

theorem SpellsLine.star {e : Expr} {p : Text → Prop} (h : SpellsLine e p) :
    SpellsLines (.rep e 0 none true) fun ls => ∀ l ∈ ls, p l := by
  intro u
  rw [spells_star h]
  simp only [forall₂_and]
  rfl

theorem SpellsLines.star {e : Expr} {p : List Text → Prop} (h : SpellsLines e p) :
    SpellsLines (.rep e 0 none true) fun ls =>
      ∃ lss : List (List Text), ls = lss.flatten ∧ ∀ ls ∈ lss, p ls := by
  intro u
  rw [spells_star h]
  constructor
  · intro hu
    obtain ⟨lss, hlss, rfl⟩ := hu
    refine ⟨lss.flatten, ⟨⟨lss, rfl, fun ls hls => (hlss ls hls).1⟩, fun l hl => ?_⟩, ?_⟩
    · obtain ⟨ls, hls, hl⟩ := List.mem_flatten.mp hl
      exact (hlss ls hls).2 l hl
    · exact (Text.ended_flatten ..).symm
  · intro hu
    obtain ⟨_, ⟨⟨lss, rfl, hlss⟩, hfeed⟩, rfl⟩ := hu
    refine ⟨lss, fun ls hls => ⟨hlss ls hls, fun l hl => ?_⟩, Text.ended_flatten ..⟩
    exact hfeed l (List.mem_flatten.mpr ⟨ls, hls, hl⟩)

theorem SpellsLines.cons {e : Expr} {es : List Expr} {p q : List Text → Prop}
    (he : SpellsLines e p) (hes : SpellsLines (.sequence es) q) :
    SpellsLines (.sequence (e :: es)) fun ls => ∃ a b, ls = a ++ b ∧ p a ∧ q b := by
  intro u
  rw [spells_sequence_cons]
  constructor
  · intro h
    obtain ⟨x, y, rfl, hx, hy⟩ := h
    obtain ⟨a, ⟨ha, hafeed⟩, rfl⟩ := (he x).mp hx
    obtain ⟨b, ⟨hb, hbfeed⟩, rfl⟩ := (hes y).mp hy
    refine ⟨a ++ b, ⟨⟨a, b, rfl, ha, hb⟩, fun l hl => ?_⟩, (Text.ended_append ..).symm⟩
    exact (List.mem_append.mp hl).elim (hafeed l) (hbfeed l)
  · intro h
    obtain ⟨_, ⟨⟨a, b, rfl, ha, hb⟩, hfeed⟩, rfl⟩ := h
    refine ⟨ended '\n' a, ended '\n' b, Text.ended_append .., (he _).mpr ⟨a, ⟨ha, ?_⟩, rfl⟩,
      (hes _).mpr ⟨b, ⟨hb, ?_⟩, rfl⟩⟩
    · exact fun l hl => hfeed l (List.mem_append_left _ hl)
    · exact fun l hl => hfeed l (List.mem_append_right _ hl)

/-! ## Entries -/

namespace FieldSort

/-- What the expression of an entry says behind the keyword. -/
def behind : FieldSort → List Expr
  | params => [gap, name, char ':']
  | returns => [optionalS, char ':']
  | yields => [optionalS, char ':']
  | raises => [optionalS, char ':', gap, dottedName]

def head (s : FieldSort) : List Expr := letters (':' :: s.keyword) ++ s.behind

end FieldSort

section

variable {s : FieldSort} {t u : Text} {ls : List Text}

theorem contains_dotted {c : Char} : dotted.contains c = true ↔ isWord c = true ∨ c = '.' := by
  have hdotted : dotted.contains c = (isWord c || (CharSet.single '.').contains c) := rfl
  rw [hdotted, Bool.or_eq_true, CharSet.contains_single]

/-- The end of a keyword that may stand in the plural. -/
theorem spells_plural {es : List Expr} : (sequence (optionalS :: char ':' :: es)).Spells u ↔
    ∃ v, (u = ':' :: v ∨ u = 's' :: ':' :: v) ∧ (sequence es).Spells v := by
  simp only [spells_sequence_cons, spells_optionalS_iff, spells_char_iff]
  constructor
  · intro h
    obtain ⟨_, _, rfl, hs, _, v, rfl, rfl, hv⟩ := h
    exact ⟨v, hs.imp (by rintro rfl; rfl) (by rintro rfl; rfl), hv⟩
  · intro h
    obtain ⟨v, rfl | rfl, hv⟩ := h
    · exact ⟨[], ':' :: v, rfl, Or.inl rfl, [':'], v, rfl, rfl, hv⟩
    · exact ⟨['s'], ':' :: v, rfl, Or.inr rfl, [':'], v, rfl, rfl, hv⟩

theorem goes_of_spells {x y : Text} (hx : (sequence s.behind).Spells x) (hy : '\n' ∉ y) :
    s.Goes (x ++ y) ∧ '\n' ∉ x ++ y := by
  have hplural : (sequence [optionalS, char ':']).Spells x →
      (∃ rest, x ++ y = ':' :: rest ∨ x ++ y = 's' :: ':' :: rest) ∧ '\n' ∉ x ++ y := by
    intro h
    obtain ⟨v, hv, hnil⟩ := spells_plural.mp h
    obtain rfl : v = [] := hnil
    rcases hv with rfl | rfl
    · exact ⟨⟨y, Or.inl rfl⟩, by simpa using hy⟩
    · exact ⟨⟨y, Or.inr rfl⟩, by simpa using hy⟩
  cases s with
  | params =>
    simp only [FieldSort.behind, spells_sequence_cons, spells_gap_iff, spells_char_iff] at hx
    obtain ⟨g, _, rfl, ⟨hne, hg⟩, n, _, rfl, hn, _, z, rfl, rfl, hz⟩ := hx
    obtain rfl : z = [] := hz
    obtain ⟨hnil, hword⟩ := spells_chars_plus.mp hn
    refine ⟨⟨g, n, y, by simp, hg, hne, hnil, hword⟩, ?_⟩
    have hfeed : '\n' ∉ n := fun hmem => absurd (hword _ hmem) (by decide)
    simp [not_mem_of_isBlank hg, hfeed, hy]
  | returns => exact hplural hx
  | yields => exact hplural hx
  | raises =>
    obtain ⟨v, hv, hrest⟩ := spells_plural.mp hx
    simp only [spells_sequence_cons, spells_gap_iff] at hrest
    obtain ⟨g, _, rfl, ⟨hne, hg⟩, n, z, rfl, hn, hz⟩ := hrest
    obtain rfl : z = [] := hz
    obtain ⟨hnil, hdotted⟩ := spells_chars_plus.mp hn
    obtain ⟨c, n, rfl⟩ := List.exists_cons_of_ne_nil hnil
    have hfeed : '\n' ∉ c :: n := fun hmem => absurd (hdotted _ hmem) (by decide)
    refine ⟨⟨g, c, n ++ y, ?_, hg, hne, contains_dotted.mp (hdotted c List.mem_cons_self)⟩, ?_⟩
    · rcases hv with rfl | rfl
      · exact Or.inl (by simp)
      · exact Or.inr (by simp)
    · have hmem : '\n' ∉ (g ++ (c :: n ++ [])) ++ y := by
        simp only [List.append_nil, List.mem_append, not_or]
        exact ⟨⟨not_mem_of_isBlank hg, hfeed⟩, hy⟩
      rcases hv with rfl | rfl <;> simpa using hmem

theorem exists_spells_of_goes (h : s.Goes t) (hfeed : '\n' ∉ t) :
    ∃ x y, t = x ++ y ∧ (sequence s.behind).Spells x ∧ '\n' ∉ y := by
  have hplural : (∃ rest, t = ':' :: rest ∨ t = 's' :: ':' :: rest) →
      ∃ x y, t = x ++ y ∧ (sequence [optionalS, char ':']).Spells x ∧ '\n' ∉ y := by
    intro h
    obtain ⟨rest, rfl | rfl⟩ := h
    · exact ⟨[':'], rest, rfl, spells_plural.mpr ⟨[], Or.inl rfl, rfl⟩, by simpa using hfeed⟩
    · exact ⟨['s', ':'], rest, rfl, spells_plural.mpr ⟨[], Or.inr rfl, rfl⟩,
        by simpa using hfeed⟩
  cases s with
  | params =>
    obtain ⟨g, n, rest, rfl, hg, hne, hnil, hword⟩ := h
    refine ⟨g ++ (n ++ [':']), rest, by simp, ?_, fun hmem => hfeed (by simp [hmem])⟩
    simp only [FieldSort.behind, spells_sequence_cons, spells_gap_iff, spells_char_iff]
    exact ⟨g, _, rfl, ⟨hne, hg⟩, n, _, rfl, spells_chars_plus.mpr ⟨hnil, hword⟩, [':'], [], rfl,
      rfl, rfl⟩
  | returns => exact hplural h
  | yields => exact hplural h
  | raises =>
    obtain ⟨g, c, rest, ht, hg, hne, hc⟩ := h
    have hrest : '\n' ∉ rest := by
      rcases ht with rfl | rfl <;> exact fun hmem => hfeed (by simp [hmem])
    have hspells : (sequence [gap, dottedName]).Spells (g ++ [c]) := by
      simp only [spells_sequence_cons, spells_gap_iff]
      refine ⟨g, [c], rfl, ⟨hne, hg⟩, [c], [], rfl, spells_chars_plus.mpr ⟨by simp, ?_⟩, rfl⟩
      intro d hd
      rw [List.mem_singleton.mp hd]
      exact contains_dotted.mpr hc
    rcases ht with rfl | rfl
    · exact ⟨':' :: (g ++ [c]), rest, by simp, spells_plural.mpr ⟨_, Or.inl rfl, hspells⟩, hrest⟩
    · exact ⟨'s' :: ':' :: (g ++ [c]), rest, by simp,
        spells_plural.mpr ⟨_, Or.inr rfl, hspells⟩, hrest⟩

/-- The first line of an entry is a field of its sort. -/
theorem isField_iff : (IsField s t ∧ '\n' ∉ t) ↔ ∃ a x y, t = a ++ (x ++ y) ∧ IsBlank a ∧
    (sequence s.head).Spells x ∧ '\n' ∉ y := by
  simp only [FieldSort.head, spells_sequence_append, spells_letters_iff]
  have hkeyword : '\n' ∉ s.keyword := by cases s <;> decide
  constructor
  · intro h
    obtain ⟨⟨a, t, rfl, ha, hgoes⟩, hfeed⟩ := h
    obtain ⟨x, y, rfl, hx, hy⟩ := exists_spells_of_goes hgoes fun hmem => hfeed (by simp [hmem])
    exact ⟨a, _, y, by simp, ha, ⟨_, x, rfl, rfl, hx⟩, hy⟩
  · intro h
    obtain ⟨a, _, y, rfl, ha, ⟨_, x, rfl, rfl, hx⟩, hy⟩ := h
    obtain ⟨hgoes, hfeed⟩ := goes_of_spells hx hy
    refine ⟨⟨a, x ++ y, by simp, ha, hgoes⟩, ?_⟩
    simpa [not_mem_of_isBlank ha, hkeyword] using hfeed

theorem spellsLines_field (s : FieldSort) :
    SpellsLines (.sequence (spaces :: (s.head ++ entryTail))) fun ls =>
      ∃ h ts, ls = h :: ts ∧ IsField s h ∧ ∀ l ∈ ts, IsText l := by
  intro u
  have htexts := spellsLine_textLine.group.star
  simp only [entryTail, spells_sequence_cons, spells_sequence_append, spells_spaces_iff,
    spells_lineRest_iff, spells_char_iff]
  constructor
  · intro h
    obtain ⟨a, _, rfl, ha, x, _, rfl, hx, y, _, rfl, hy, _, _, rfl, rfl, z, w, rfl, hz, hw⟩ := h
    obtain rfl : w = [] := hw
    obtain ⟨ts, ⟨hts, hfeed⟩, rfl⟩ := (htexts z).mp hz
    obtain ⟨hfield, hline⟩ := isField_iff.mpr ⟨a, x, y, rfl, ha, hx, hy⟩
    exact ⟨(a ++ (x ++ y)) :: ts,
      ⟨⟨_, ts, rfl, hfield, hts⟩, List.forall_mem_cons.mpr ⟨hline, hfeed⟩⟩, by simp⟩
  · intro h
    obtain ⟨_, ⟨⟨l, ts, rfl, hl, hts⟩, hfeed⟩, rfl⟩ := h
    rw [List.forall_mem_cons] at hfeed
    obtain ⟨a, x, y, rfl, ha, hx, hy⟩ := isField_iff.mp ⟨hl, hfeed.1⟩
    exact ⟨a, x ++ (y ++ '\n' :: ended '\n' ts), by simp, ha, x, _, rfl, hx, y, _, rfl, hy,
      ['\n'], _, rfl, rfl, ended '\n' ts, [], (List.append_nil _).symm,
      (htexts _).mpr ⟨ts, ⟨hts, hfeed.2⟩, rfl⟩, rfl⟩

theorem SpellsLines.congr {e : Expr} {p q : List Text → Prop} (h : SpellsLines e p)
    (hpq : ∀ ls, p ls ↔ q ls) : SpellsLines e q := by
  intro u
  rw [h u]
  simp only [hpq]

theorem spellsLines_entry (s : FieldSort) : SpellsLines (entry s.head) (IsEntry s) := by
  refine (spellsLine_blankLine.group.star.cons (spellsLines_field s)).congr fun ls => ?_
  constructor
  · intro h
    obtain ⟨bs, _, rfl, hbs, f, ts, rfl, hf, hts⟩ := h
    exact ⟨bs, f, ts, rfl, hbs, hf, hts⟩
  · intro h
    obtain ⟨bs, f, ts, rfl, hbs, hf, hts⟩ := h
    exact ⟨bs, f :: ts, rfl, hbs, f, ts, rfl, hf, hts⟩

theorem sections_cons_iff {ss : List FieldSort} : Sections (s :: ss) ls ↔
    ∃ a b, ls = a ++ b ∧ (∃ lss : List (List Text), a = lss.flatten ∧ ∀ e ∈ lss, IsEntry s e) ∧
      Sections ss b := by
  constructor
  · intro h
    generalize hcons : s :: ss = sorts at h
    induction h with
    | blanks h => exact ⟨[], _, rfl, ⟨[], rfl, by simp⟩, .blanks h⟩
    | skip h _ =>
      obtain ⟨rfl, rfl⟩ := List.cons.inj hcons
      exact ⟨[], _, rfl, ⟨[], rfl, by simp⟩, h⟩
    | @entry _ _ e _ hentry _ ih =>
      obtain ⟨rfl, rfl⟩ := List.cons.inj hcons
      obtain ⟨_, b, rfl, ⟨lss, rfl, hlss⟩, hb⟩ := ih rfl
      exact ⟨e ++ lss.flatten, b, (List.append_assoc ..).symm,
        ⟨e :: lss, rfl, List.forall_mem_cons.mpr ⟨hentry, hlss⟩⟩, hb⟩
  · intro h
    obtain ⟨_, b, rfl, ⟨lss, rfl, hlss⟩, hb⟩ := h
    induction lss with
    | nil => exact .skip hb
    | cons e lss ih =>
      rw [List.forall_mem_cons] at hlss
      rw [List.flatten_cons, List.append_assoc]
      exact .entry hlss.1 (ih hlss.2)

theorem spellsLines_sections (ss : List FieldSort) :
    SpellsLines (.sequence (ss.map (fun s => entries s.head) ++ [blankLines])) (Sections ss) := by
  induction ss with
  | nil =>
    refine spellsLine_blankLine.group.star.congr fun ls => ⟨.blanks, fun h => ?_⟩
    cases h with
    | blanks h => exact h
  | cons s ss ih =>
    exact ((spellsLines_entry s).star.cons ih).congr fun ls => sections_cons_iff.symm

end

/-! ## Docstrings -/

theorem manyLines_eq : manyLines = .sequence ([spaces, quotes, lineRest, char '\n',
    .rep summaryLine 0 none true] ++ ((FieldSort.all.map (fun s => entries s.head) ++
      [blankLines]) ++ [spaces, quotes])) := rfl

theorem spells_manyLines_iff {d : Text} : manyLines.Spells d ↔ ∃ first middle last,
    Text.splitOn '\n' d = first :: (middle ++ [last]) ∧
      (∃ a q r, first = a ++ (q ++ r) ∧ IsBlank a ∧ IsQuote q) ∧ Conforms middle ∧
      ∃ a q, last = a ++ q ∧ IsBlank a ∧ IsQuote q := by
  have hblanksOrTexts := (spellsLine_blankLine.alt spellsLine_textLine).group.star
  have hsections := spellsLines_sections FieldSort.all
  have hlast : ∀ {a q : Text}, IsBlank a → IsQuote q → '\n' ∉ a ++ q := by
    intro a q ha hq hmem
    rcases List.mem_append.mp hmem with hmem | hmem
    · exact not_mem_of_isBlank ha hmem
    · rcases hq with rfl | rfl <;> exact absurd hmem (by decide)
  rw [manyLines_eq, spells_sequence_append]
  simp only [spells_sequence_cons, @spells_sequence_append _ [spaces, quotes],
    spells_spaces_iff, spells_quotes_iff, spells_lineRest_iff, spells_char_iff]
  constructor
  · intro h
    obtain ⟨_, _, rfl, ⟨a, _, rfl, ha, q, _, rfl, hq, r, _, rfl, hr, _, _, rfl, rfl, x, w, rfl,
      hx, hw⟩, y, _, rfl, hy, a', _, rfl, ha', q', w', rfl, hq', hw'⟩ := h
    obtain rfl : w = [] := hw
    obtain rfl : w' = [] := hw'
    obtain ⟨summary, ⟨hsummary, hfeed⟩, rfl⟩ := (hblanksOrTexts x).mp hx
    obtain ⟨rest, ⟨hrest, hfeed'⟩, rfl⟩ := (hsections y).mp hy
    refine ⟨a ++ (q ++ r), summary ++ rest, a' ++ q', ?_, ⟨a, q, r, rfl, ha, hq⟩,
      conforms_iff.mpr ⟨summary, rest, rfl, hsummary, hrest⟩, a', q', rfl, ha', hq'⟩
    rw [← List.cons_append, Text.splitOn_eq_iff]
    refine ⟨by simp [Text.ended_append], ?_, hlast ha' hq'⟩
    rw [List.forall_mem_cons, List.forall_mem_append, ← List.append_assoc]
    refine ⟨fun hmem => ?_, hfeed, hfeed'⟩
    exact (List.mem_append.mp hmem).elim (hlast ha hq) hr
  · intro h
    obtain ⟨_, middle, _, hsplit, ⟨a, q, r, rfl, ha, hq⟩, hmiddle, a', q', rfl, ha', hq'⟩ := h
    obtain ⟨summary, rest, rfl, hsummary, hrest⟩ := conforms_iff.mp hmiddle
    rw [← List.cons_append, Text.splitOn_eq_iff, List.forall_mem_cons,
      List.forall_mem_append] at hsplit
    obtain ⟨rfl, ⟨hfirst, hfeed, hfeed'⟩, -⟩ := hsplit
    have hr : '\n' ∉ r := fun hmem => hfirst (by simp [hmem])
    refine ⟨a ++ (q ++ (r ++ '\n' :: ended '\n' summary)), ended '\n' rest ++ (a' ++ q'), ?_,
      ⟨a, _, rfl, ha, q, _, rfl, hq, r, _, rfl, hr, ['\n'], _, rfl, rfl, _, [], ?_,
        (hblanksOrTexts _).mpr ⟨summary, ⟨hsummary, hfeed⟩, rfl⟩, rfl⟩,
      _, _, rfl, (hsections _).mpr ⟨rest, ⟨hrest, hfeed'⟩, rfl⟩, a', _, rfl, ha', q', [], ?_, hq',
      rfl⟩
    · simp [Text.ended_append]
    · exact (List.append_nil _).symm
    · exact (List.append_nil _).symm

theorem spells_oneLine_iff {d : Text} : oneLine.Spells d ↔ ∃ a q b q', d = a ++ (q ++ (b ++ q')) ∧
    IsBlank a ∧ IsQuote q ∧ (∀ c ∈ b, c ≠ '\n' ∧ c ≠ ':') ∧ IsQuote q' := by
  have hinner : ∀ c, (CharSet.compl
      (.union (.union .empty (.single '\n')) (.single ':'))).contains c = true ↔
      c ≠ '\n' ∧ c ≠ ':' := by
    intro c
    have heq : (CharSet.compl (.union (.union .empty (.single '\n')) (.single ':'))).contains c =
      !((CharSet.single '\n').contains c || (CharSet.single ':').contains c) := rfl
    rw [heq, Bool.not_eq_true', Bool.or_eq_false_iff, ← Bool.not_eq_true, ← Bool.not_eq_true,
      CharSet.contains_single, CharSet.contains_single]
  simp only [oneLine, spells_sequence_cons, spells_spaces_iff, spells_quotes_iff,
    spells_chars_any, hinner]
  constructor
  · intro h
    obtain ⟨a, _, rfl, ha, q, _, rfl, hq, b, _, rfl, hb, q', w, rfl, hq', hw⟩ := h
    obtain rfl : w = [] := hw
    exact ⟨a, q, b, q', by simp, ha, hq, hb, hq'⟩
  · intro h
    obtain ⟨a, q, b, q', rfl, ha, hq, hb, hq'⟩ := h
    exact ⟨a, _, rfl, ha, q, _, rfl, hq, b, q', rfl, hb, q', [], by simp, hq', rfl⟩

theorem hasForm_iff {d : Text} : (Expr.alt manyLines oneLine).Spells d ↔ HasForm d := by
  rw [Expr.Spells, spells_manyLines_iff, spells_oneLine_iff]
  constructor
  · intro h
    rcases h with ⟨first, middle, last, hsplit, hfirst, hmiddle, hlast⟩ | h
    · exact .manyLines first middle last hsplit hfirst hmiddle hlast
    · obtain ⟨a, q, b, q', hd, ha, hq, hb, hq'⟩ := h
      exact .oneLine a q b q' hd ha hq hb hq'
  · intro h
    cases h with
    | oneLine a q b q' hd ha hq hb hq' => exact Or.inr ⟨a, q, b, q', hd, ha, hq, hb, hq'⟩
    | manyLines first middle last hsplit hfirst hmiddle hlast =>
      exact Or.inl ⟨first, middle, last, hsplit, hfirst, hmiddle, hlast⟩

end Standard

namespace Grammar

theorem accepts_standard_iff {d : Text} : standard.accepts d = true ↔ Standard.HasForm d := by
  have hplain : (Pattern.Expr.group none (.alt Standard.manyLines Standard.oneLine)).isPlain =
      true := by decide +kernel
  exact (Pattern.Expr.isMatch_anchored hplain d).trans Standard.hasForm_iff

/-- The standard template can be used for any kind of definition, and it accepts the docstrings of
the standard form and no others. -/
theorem standard_accepts_iff (lib : Pattern.Library) (kind : Text) :
    ∃ g, compile lib kind Template.standard = .ok g ∧
      ∀ d, g.accepts d = true ↔ Standard.HasForm d :=
  ⟨standard, compile_standard lib kind, fun _ => accepts_standard_iff⟩

end Grammar

end DocCoverage
