import Mathlib.Data.List.Chain
import Mathlib.Data.List.TakeWhile
import DocCoverage.Proofs.Grammar.Fields
import DocCoverage.Proofs.Text.Split

/-!
# The lines of a docstring

What a docstring of the standard form looks like, line by line: blank lines, lines of text and
fields of four sorts. From the first field on the lines fall into entries, each a field with blank
lines before it and its continuation lines behind it. The lines fall into entries in the order of
the sorts exactly if the fields stand in this order and no line of text is cut off from its field
by a blank line.
-/
namespace DocCoverage.Standard

open Text (isWord)

/-- Spaces only. -/
def IsBlank (l : Text) : Prop := ∀ c ∈ l, c = ' '

instance : DecidablePred IsBlank := fun l => inferInstanceAs (Decidable (∀ c ∈ l, c = ' '))

/-- The first character other than a space is neither whitespace nor a colon. -/
def IsText (l : Text) : Prop :=
  ∃ a c b, l = a ++ c :: b ∧ IsBlank a ∧ Text.isBlank c = false ∧ c ≠ ':'

/-- The sorts of fields. -/
inductive FieldSort where
  | params
  | returns
  | yields
  | raises
  deriving DecidableEq, Repr

namespace FieldSort

/-- The sorts in the order of the template. -/
def all : List FieldSort := [params, returns, yields, raises]

/-- The place of a sort in this order. -/
def rank : FieldSort → Nat
  | params => 0
  | returns => 1
  | yields => 2
  | raises => 3

theorem mem_all (s : FieldSort) : s ∈ all := by
  cases s <;> decide

/-- The word behind the first colon. -/
def keyword : FieldSort → Text
  | params => paramWord
  | returns => returnWord
  | yields => yieldWord
  | raises => raiseWord

/-- What stands behind the keyword of a field. -/
def Goes : FieldSort → Text → Prop
  | params, t => ∃ gap name rest, t = gap ++ (name ++ ':' :: rest) ∧ IsBlank gap ∧ gap ≠ [] ∧
      name ≠ [] ∧ ∀ c ∈ name, isWord c = true
  | returns, t => ∃ rest, t = ':' :: rest ∨ t = 's' :: ':' :: rest
  | yields, t => ∃ rest, t = ':' :: rest ∨ t = 's' :: ':' :: rest
  | raises, t => ∃ gap c rest,
      (t = ':' :: (gap ++ c :: rest) ∨ t = 's' :: ':' :: (gap ++ c :: rest)) ∧
      IsBlank gap ∧ gap ≠ [] ∧ (isWord c = true ∨ c = '.')

end FieldSort

/-- A field of a sort, behind spaces: a colon, the keyword and what belongs to it. -/
def IsField (s : FieldSort) (l : Text) : Prop :=
  ∃ a t, l = a ++ ':' :: (s.keyword ++ t) ∧ IsBlank a ∧ s.Goes t

/-- The lines between the first and the last. -/
structure Conforms (ls : List Text) : Prop where
  known : ∀ l ∈ ls, IsBlank l ∨ IsText l ∨ ∃ s, IsField s l
  sorted : ls.Pairwise fun l l' => ∀ s s', IsField s l → IsField s' l' → s.rank ≤ s'.rank
  /-- Behind a field no line of text follows a blank line. -/
  attached : ∀ a k l b, ls = a ++ k :: l :: b → IsBlank k → IsText l → ∀ f ∈ a, ∀ s, ¬ IsField s f

/-- Three double or three single quotes. -/
def IsQuote (q : Text) : Prop := q = ['"', '"', '"'] ∨ q = ['\'', '\'', '\'']

/-- The standard form of a docstring. -/
inductive HasForm (d : Text) : Prop
  | oneLine (a q b q' : Text) (eq : d = a ++ (q ++ (b ++ q'))) (spaces : IsBlank a)
      (opens : IsQuote q) (inner : ∀ c ∈ b, c ≠ '\n' ∧ c ≠ ':') (closes : IsQuote q')
  | manyLines (first : Text) (middle : List Text) (last : Text)
      (split : Text.splitOn '\n' d = first :: (middle ++ [last]))
      (opens : ∃ a q r, first = a ++ (q ++ r) ∧ IsBlank a ∧ IsQuote q)
      (conforms : Conforms middle) (closes : ∃ a q, last = a ++ q ∧ IsBlank a ∧ IsQuote q)

/-! ## Telling lines apart -/

section

variable {l l' : Text} {s s' : FieldSort}

theorem not_isText_of_isBlank (h : IsBlank l) : ¬ IsText l := by
  intro htext
  obtain ⟨a, c, b, rfl, -, hc, -⟩ := htext
  rw [h c (by simp)] at hc
  cases hc

theorem indentation_unique {a a' t t' : Text} {c c' : Char} (h : a ++ c :: t = a' ++ c' :: t')
    (ha : IsBlank a) (ha' : IsBlank a') (hc : c ≠ ' ') (hc' : c' ≠ ' ') :
    a = a' ∧ c = c' ∧ t = t' := by
  have hspace : ∀ {x : Text}, IsBlank x → ∀ d ∈ x, (d == ' ') = true :=
    fun hx d hd => beq_iff_eq.mpr (hx d hd)
  obtain ⟨rfl, hrest⟩ := Text.span_unique h (hspace ha) (hspace ha')
    (head_eq (by simpa using hc)) (head_eq (by simpa using hc'))
  obtain ⟨rfl, rfl⟩ := List.cons.inj hrest
  exact ⟨rfl, rfl, rfl⟩

theorem not_isBlank_of_isField (h : IsField s l) : ¬ IsBlank l := by
  intro hblank
  obtain ⟨a, t, rfl, -, -⟩ := h
  exact absurd (hblank ':' (by simp)) (by decide)

theorem not_isText_of_isField (h : IsField s l) : ¬ IsText l := by
  intro htext
  obtain ⟨a, t, rfl, ha, -⟩ := h
  obtain ⟨a', c, b, heq, ha', hblank, hcolon⟩ := htext
  have hspace : c ≠ ' ' := by
    rintro rfl
    cases hblank
  exact hcolon (indentation_unique heq ha ha' (by decide) hspace).2.1.symm

theorem isField_unique (h : IsField s l) (h' : IsField s' l) : s = s' := by
  obtain ⟨a, t, rfl, ha, -⟩ := h
  obtain ⟨a', t', heq, ha', -⟩ := h'
  have hword := (indentation_unique heq ha ha' (by decide) (by decide)).2.2
  revert hword
  cases s <;> cases s' <;>
    simp [FieldSort.keyword, paramWord, returnWord, yieldWord, raiseWord]

end

/-! ## Entries -/

/-- One entry: a field with blank lines before it and lines of text behind it. -/
def IsEntry (s : FieldSort) (ls : List Text) : Prop :=
  ∃ bs h ts, ls = bs ++ h :: ts ∧ (∀ l ∈ bs, IsBlank l) ∧ IsField s h ∧ ∀ l ∈ ts, IsText l

/-- Entries in the order of the given sorts, any number of each, and blank lines behind them. -/
inductive Sections : List FieldSort → List Text → Prop
  | blanks {ss : List FieldSort} {ls : List Text} (h : ∀ l ∈ ls, IsBlank l) : Sections ss ls
  | skip {s : FieldSort} {ss : List FieldSort} {ls : List Text} (h : Sections ss ls) :
      Sections (s :: ss) ls
  | entry {s : FieldSort} {ss : List FieldSort} {e ls : List Text} (head : IsEntry s e)
      (tail : Sections (s :: ss) ls) : Sections (s :: ss) (e ++ ls)

/-- A line of text stands behind a line that is not blank. -/
def Follows (k l : Text) : Prop := IsText l → ¬ IsBlank k

/-- What can be said of the lines from the first field on, one by one and in pairs. The line in
front of them counts as blank. -/
structure Orderly (ss : List FieldSort) (ls : List Text) : Prop where
  known : ∀ l ∈ ls, IsBlank l ∨ IsText l ∨ ∃ s ∈ ss, IsField s l
  sorted : ls.Pairwise fun l l' => ∀ s s', IsField s l → IsField s' l' → s.rank ≤ s'.rank
  attached : (([] : Text) :: ls).IsChain Follows

section

variable {s : FieldSort} {ss : List FieldSort} {ls e : List Text}

theorem follows_of_not_isText {k l : Text} (h : ¬ IsText l) : Follows k l := fun hl => absurd hl h

theorem Sections.skips (h : Sections ss ls) (front : List FieldSort) :
    Sections (front ++ ss) ls := by
  induction front with
  | nil => exact h
  | cons s front ih => exact .skip ih

/-- Every line of an entry is known, and only one of them is a field. -/
theorem IsEntry.known (h : IsEntry s e) :
    ∀ l ∈ e, IsBlank l ∨ IsText l ∨ IsField s l := by
  obtain ⟨bs, f, ts, rfl, hbs, hf, hts⟩ := h
  intro l hl
  rcases List.mem_append.mp hl with hl | hl
  · exact Or.inl (hbs l hl)
  · rcases List.mem_cons.mp hl with rfl | hl
    · exact Or.inr (Or.inr hf)
    · exact Or.inr (Or.inl (hts l hl))

theorem IsEntry.sort_eq (h : IsEntry s e) {l : Text} (hl : l ∈ e) {s' : FieldSort}
    (hs' : IsField s' l) : s' = s := by
  rcases h.known l hl with hblank | htext | hfield
  · exact absurd hblank (not_isBlank_of_isField hs')
  · exact absurd htext (not_isText_of_isField hs')
  · exact isField_unique hs' hfield

/-- Lines that are no text are attached behind any line. -/
theorem isChain_of_not_isText (k : Text) (h : ∀ l ∈ ls, ¬ IsText l) :
    (k :: ls).IsChain Follows := by
  induction ls generalizing k with
  | nil => exact .singleton k
  | cons l ls ih =>
    exact .cons_cons (follows_of_not_isText (h l List.mem_cons_self))
      (ih l fun d hd => h d (List.mem_cons_of_mem l hd))

/-- Lines of text are attached behind a line that is not blank. -/
theorem isChain_of_isText {k : Text} (hk : ¬ IsBlank k) (h : ∀ l ∈ ls, IsText l) :
    (k :: ls).IsChain Follows := by
  induction ls generalizing k with
  | nil => exact .singleton k
  | cons l ls ih =>
    exact .cons_cons (fun _ => hk)
      (ih (fun hl => not_isText_of_isBlank hl (h l List.mem_cons_self))
        fun d hd => h d (List.mem_cons_of_mem l hd))

theorem IsEntry.attached (h : IsEntry s e) (k : Text) :
    (k :: e).IsChain Follows ∧ ∀ l ∈ (k :: e).getLast?, ¬ IsBlank l := by
  obtain ⟨bs, f, ts, rfl, hbs, hf, hts⟩ := h
  have hnotBlank := not_isBlank_of_isField hf
  constructor
  · rw [List.isChain_cons_split]
    refine ⟨isChain_of_not_isText k fun l hl => ?_, isChain_of_isText hnotBlank hts⟩
    rcases List.mem_append.mp hl with hl | hl
    · exact not_isText_of_isBlank (hbs l hl)
    · rw [List.mem_singleton.mp hl]
      exact not_isText_of_isField hf
  · intro l hl
    rw [← List.cons_append, List.getLast?_append_cons] at hl
    rcases List.mem_cons.mp (List.mem_of_getLast? hl) with rfl | hl
    · exact hnotBlank
    · exact fun hblank => not_isText_of_isBlank hblank (hts l hl)

/-- Lines without a field, and lines with a field of one sort only, are in order. -/
theorem pairwise_of_sort (h : ∀ l ∈ ls, ∀ s', IsField s' l → s' = s) :
    ls.Pairwise fun l l' => ∀ s s', IsField s l → IsField s' l' → s.rank ≤ s'.rank := by
  apply List.pairwise_of_forall_mem_list
  intro l hl l' hl' s₁ s₂ h₁ h₂
  rw [h l hl s₁ h₁, h l' hl' s₂ h₂]

/-- Lines that fall into entries are orderly. -/
theorem Sections.orderly (h : Sections ss ls) (hss : ss.Pairwise fun s s' => s.rank < s'.rank) :
    Orderly ss ls := by
  induction h with
  | @blanks ss ls hls =>
    refine ⟨fun l hl => Or.inl (hls l hl), pairwise_of_sort (s := .params) ?_,
      isChain_of_not_isText [] fun l hl => not_isText_of_isBlank (hls l hl)⟩
    intro l hl s hfield
    exact absurd (hls l hl) (not_isBlank_of_isField hfield)
  | @skip s ss ls _ ih =>
    have htail := ih (List.Pairwise.of_cons hss)
    refine ⟨fun l hl => ?_, htail.sorted, htail.attached⟩
    exact (htail.known l hl).imp_right (Or.imp_right fun h =>
      h.imp fun s' hs' => ⟨List.mem_cons_of_mem s hs'.1, hs'.2⟩)
  | @entry s ss e ls hentry _ ih =>
    have htail := ih hss
    refine ⟨fun l hl => ?_, ?_, ?_⟩
    · rcases List.mem_append.mp hl with hl | hl
      · exact (hentry.known l hl).imp_right (Or.imp_right fun h =>
          ⟨s, List.mem_cons_self, h⟩)
      · exact htail.known l hl
    · rw [List.pairwise_append]
      refine ⟨pairwise_of_sort fun l hl s' hs' => hentry.sort_eq hl hs', htail.sorted, ?_⟩
      intro l hl l' hl' s₁ s₂ h₁ h₂
      rw [hentry.sort_eq hl h₁]
      rcases htail.known l' hl' with hblank | htext | ⟨s', hs', hfield⟩
      · exact absurd hblank (not_isBlank_of_isField h₂)
      · exact absurd htext (not_isText_of_isField h₂)
      · rw [isField_unique h₂ hfield]
        rcases List.mem_cons.mp hs' with rfl | hs'
        · exact Nat.le_refl _
        · exact Nat.le_of_lt (List.rel_of_pairwise_cons hss hs')
    · obtain ⟨hchain, hlast⟩ := hentry.attached []
      exact hchain.append (List.IsChain.tail htail.attached) fun x hx _ _ _ => hlast x hx

/-- The longest front of lines of a kind. -/
theorem exists_front (p : Text → Prop) (ls : List Text) :
    ∃ front rest, ls = front ++ rest ∧ (∀ l ∈ front, p l) ∧ ∀ l ∈ rest.head?, ¬ p l := by
  induction ls with
  | nil => exact ⟨[], [], rfl, by simp, by simp⟩
  | cons l ls ih =>
    by_cases hl : p l
    · obtain ⟨front, rest, rfl, hfront, hrest⟩ := ih
      refine ⟨l :: front, rest, rfl, fun d hd => ?_, hrest⟩
      rcases List.mem_cons.mp hd with rfl | hd
      · exact hl
      · exact hfront d hd
    · exact ⟨[], l :: ls, rfl, by simp, by simpa using hl⟩

/-- The first line that is not blank is a field of some sort. -/
theorem Orderly.exists_field {bs rest : List Text} {f : Text} (h : Orderly ss (bs ++ f :: rest))
    (hbs : ∀ l ∈ bs, IsBlank l) (hf : ¬ IsBlank f) : ∃ s ∈ ss, IsField s f := by
  rcases h.known f (by simp) with hblank | htext | hfield
  · exact absurd hblank hf
  · -- a line of text would be cut off by the line before it, which is blank
    obtain ⟨k, hk⟩ : ∃ k, (([] : Text) :: bs).getLast? = some k :=
      ⟨_, List.getLast?_eq_some_getLast (List.cons_ne_nil _ _)⟩
    have hblank : IsBlank k := by
      rcases List.mem_cons.mp (List.mem_of_getLast? hk) with rfl | hk
      · exact fun c hc => absurd hc List.not_mem_nil
      · exact hbs k hk
    have hchain : (([] :: bs) ++ f :: rest).IsChain Follows := h.attached
    exact absurd hblank ((List.isChain_append.mp hchain).2.2 k hk f rfl htext)
  · exact hfield

/-- What stands behind an entry of a sort is orderly for that sort and those behind it. -/
theorem Orderly.behind {front rest : List FieldSort} {e : List Text} (he : IsEntry s e)
    (h : Orderly (front ++ s :: rest) (e ++ ls))
    (hfront : ∀ s' ∈ front, s'.rank < s.rank) (hhead : ∀ l ∈ ls.head?, ¬ IsText l) :
    Orderly (s :: rest) ls := by
  obtain ⟨bs, f, ts, rfl, -, hf, -⟩ := he
  have hsorted := List.pairwise_append.mp h.sorted
  refine ⟨fun l hl => ?_, hsorted.2.1, ?_⟩
  · refine (h.known l (List.mem_append_right _ hl)).imp_right (Or.imp_right fun hfield => ?_)
    obtain ⟨s', hs', hfield⟩ := hfield
    have hle := hsorted.2.2 f (by simp) l hl s s' hf hfield
    refine ⟨s', (List.mem_append.mp hs').resolve_left fun hmem => ?_, hfield⟩
    have hlt := hfront s' hmem
    omega
  · have hchain : (([] :: (bs ++ f :: ts)) ++ ls).IsChain Follows := h.attached
    have htail := hchain.right_of_append
    cases ls with
    | nil => exact .singleton []
    | cons l ls => exact .cons_cons (follows_of_not_isText (hhead l rfl)) htail

theorem Orderly.sections (h : Orderly ss ls) (hss : ss.Pairwise fun s s' => s.rank < s'.rank) :
    Sections ss ls := by
  -- by induction on the number of lines, an entry at a time
  generalize hn : ls.length = n
  induction n using Nat.strongRecOn generalizing ls ss with
  | ind n ih =>
    obtain ⟨bs, rest, rfl, hbs, hrest⟩ := exists_front IsBlank ls
    cases rest with
    | nil =>
      rw [List.append_nil]
      exact .blanks hbs
    | cons f rest =>
      obtain ⟨s, hs, hf⟩ := h.exists_field hbs (hrest f rfl)
      obtain ⟨front, back, rfl⟩ := List.append_of_mem hs
      obtain ⟨ts, ls, rfl, hts, hhead⟩ := exists_front IsText rest
      have hentry : IsEntry s (bs ++ f :: ts) := ⟨bs, f, ts, rfl, hbs, hf, hts⟩
      have hsplit : bs ++ f :: (ts ++ ls) = (bs ++ f :: ts) ++ ls := by simp
      rw [hsplit] at h ⊢
      obtain ⟨-, hback, hfront⟩ := List.pairwise_append.mp hss
      have htail : Orderly (s :: back) ls :=
        h.behind hentry (fun s' hs' => hfront s' hs' s List.mem_cons_self) hhead
      have hlen : ls.length < n := by
        rw [← hn]
        simp only [List.length_append, List.length_cons]
        omega
      exact (Sections.entry hentry (ih _ hlen htail hback rfl)).skips front

theorem sections_iff (hss : ss.Pairwise fun s s' => s.rank < s'.rank) :
    Sections ss ls ↔ Orderly ss ls :=
  ⟨fun h => h.orderly hss, fun h => h.sections hss⟩

end

/-! ## The lines between the first and the last -/

theorem rank_all : FieldSort.all.Pairwise fun s s' => s.rank < s'.rank := by decide

/-- The lines between the first and the last conform to the standard form exactly if they are a
summary and then entries in the order of the sorts. -/
theorem conforms_iff {ls : List Text} :
    Conforms ls ↔ ∃ summary rest, ls = summary ++ rest ∧
      (∀ l ∈ summary, IsBlank l ∨ IsText l) ∧ Sections FieldSort.all rest := by
  simp only [sections_iff rank_all]
  constructor
  · intro h
    obtain ⟨summary, rest, rfl, hsummary, hhead⟩ := exists_front (fun l => ∀ s, ¬ IsField s l) ls
    have hsorted := (List.pairwise_append.mp h.sorted).2.1
    refine ⟨summary, rest, rfl, fun l hl => ?_, fun l hl => ?_, hsorted, ?_⟩
    · rcases h.known l (List.mem_append_left _ hl) with hblank | htext | ⟨s, hfield⟩
      · exact Or.inl hblank
      · exact Or.inr htext
      · exact absurd hfield (hsummary l hl s)
    · exact (h.known l (List.mem_append_right _ hl)).imp_right (Or.imp_right fun hfield =>
        hfield.imp fun s hs => ⟨s.mem_all, hs⟩)
    · cases rest with
      | nil => exact .singleton []
      | cons f rest =>
        obtain ⟨s, hf⟩ : ∃ s, IsField s f := by simpa using hhead f rfl
        refine .cons_cons (follows_of_not_isText (not_isText_of_isField hf)) ?_
        apply List.isChain_iff_forall_rel_of_append_cons_cons.mpr
        intro k l a b heq htext hblank
        cases a with
        | nil =>
          rw [(List.cons.inj heq).1] at hf
          exact not_isBlank_of_isField hf hblank
        | cons f' a =>
          obtain ⟨rfl, rfl⟩ := List.cons.inj heq
          exact h.attached (summary ++ f :: a) k l b (by simp) hblank htext f (by simp) s hf
  · intro h
    obtain ⟨summary, rest, rfl, hsummary, horderly⟩ := h
    have hnone : ∀ l ∈ summary, ∀ s, ¬ IsField s l := by
      intro l hl s hfield
      rcases hsummary l hl with hblank | htext
      · exact not_isBlank_of_isField hfield hblank
      · exact not_isText_of_isField hfield htext
    refine ⟨fun l hl => ?_, ?_, ?_⟩
    · rcases List.mem_append.mp hl with hl | hl
      · exact (hsummary l hl).imp_right Or.inl
      · exact (horderly.known l hl).imp_right (Or.imp_right fun hfield =>
          hfield.imp fun s hs => hs.2)
    · rw [List.pairwise_append]
      refine ⟨pairwise_of_sort (s := .params) fun l hl s hs => absurd hs (hnone l hl s),
        horderly.sorted, fun l hl l' hl' s s' hs => absurd hs (hnone l hl s)⟩
    · intro a k l b heq hblank htext f hf s hfield
      rcases List.append_eq_append_iff.mp heq with ⟨c, rfl, hc⟩ | ⟨c, rfl, -⟩
      · -- the two lines stand behind the summary, where they would be attached
        have hchain := horderly.attached
        rw [hc] at hchain
        exact (List.isChain_cons_append_cons_cons.mp hchain).2.1 htext hblank
      · exact hnone f (by simp [hf]) s hfield

end DocCoverage.Standard
