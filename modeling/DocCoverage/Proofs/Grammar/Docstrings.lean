import DocCoverage.Proofs.Grammar.Found

/-!
# Docstrings made of fields

A docstring with a summary and fields of one line each. The standard grammar finds every field,
whatever the order in which they stand, and accepts the docstring when they stand in the order of
the template.
-/
namespace DocCoverage

namespace Field

def sort : Field → Standard.FieldSort
  | param _ => .params
  | returns => .returns
  | yields => .yields
  | raises _ => .raises

/-- The name in a field; returns and yields have none. -/
def name : Field → Text
  | param name => name
  | returns => []
  | yields => []
  | raises name => name

theorem keyword_sort (f : Field) : f.sort.keyword = f.keyword := by
  cases f <;> rfl

end Field

namespace Standard

open Text (ended isWord)

/-- The last line of a docstring. -/
def closing : Text := indent ++ ['"', '"', '"']

/-- The fields of a docstring, a line each, and its last line. -/
def fieldLines (fs : List Field) : Text := fs.flatMap (fun f => line f.text) ++ closing

/-- A docstring with a summary and fields. -/
def docText (fs : List Field) : Text := "\"\"\"\n    Summary\n\n" ++ fieldLines fs

def summary : Text := line ['S', 'u', 'm', 'm', 'a', 'r', 'y'] ++ ['\n']

theorem docText_eq (fs : List Field) :
    docText fs = [] ++ (['"', '"', '"'] ++ ([] ++ (['\n'] ++ (summary ++ fieldLines fs)))) := by
  have hfront : ("\"\"\"\n    Summary\n\n" : Text) =
      ['"', '"', '"'] ++ (['\n'] ++ summary) := by decide +kernel
  exact congrArg (· ++ fieldLines fs) hfront

/-! ## The line of a field -/

section

variable {f : Field} {fs : List Field} {s : FieldSort}

theorem isBlank_indent : IsBlank indent := fun c hc => eq_of_beq (indent_blank c hc)

theorem field?_text (h : f.Named) : field? f.sort (indent ++ f.text) = some f.name := by
  have hdrop : (indent ++ f.text).dropWhile (· == ' ') = f.text := by
    rw [Field.text_eq]
    rfl
  rw [field?, hdrop, fieldAt?_eq_some_iff]
  refine ⟨f.label ++ ':' :: ' ' :: f.body, by rw [f.keyword_sort, f.text_eq], ?_⟩
  have hspace : IsBlank [' '] := fun _ hc => List.mem_singleton.mp hc
  cases f with
  | param name =>
    obtain ⟨c, rest, rfl, -⟩ := h.first
    exact ⟨[' '], _, rfl, hspace, by decide, List.cons_ne_nil _ _,
      fun c hc => Text.isWord_of_isAsciiWord (h.word c hc)⟩
  | returns => exact ⟨rfl, _, Or.inl rfl⟩
  | yields => exact ⟨rfl, _, Or.inl rfl⟩
  | raises name =>
    refine ⟨[' '], _, Or.inl rfl, hspace, by decide, h.ne_nil, fun c hc => ?_, head_eq (by decide)⟩
    rcases h.dotted c hc with hword | rfl
    · rw [Text.isWord_of_isAsciiWord hword, Bool.true_or]
    · decide

theorem isField_text (h : f.Named) : IsField f.sort (indent ++ f.text) :=
  isField_iff_field?.mpr (by simp [field?_text h])

theorem isText_text (h : f.Named) : isText (indent ++ f.text) = false := by
  rw [← Bool.not_eq_true, isText_iff]
  exact not_isText_of_isField (isField_text h)

/-- An occurrence of a character is the first one or stands behind it. -/
theorem first_or_behind {c : Char} {x y a b : Text} (hx : c ∉ x)
    (h : x ++ c :: y = a ++ c :: b) : x = a ∧ y = b ∨ ∃ m, y = m ++ c :: b := by
  rcases List.append_eq_append_iff.mp h with ⟨m, rfl, hm⟩ | ⟨m, rfl, hm⟩
  · cases m with
    | nil => exact Or.inl ⟨by simp, (List.cons.inj hm).2⟩
    | cons d m => exact Or.inr ⟨m, (List.cons.inj hm).2⟩
  · cases m with
    | nil => exact Or.inl ⟨by simp, (List.cons.inj hm).2.symm⟩
    | cons d m =>
      obtain rfl := (List.cons.inj hm).1
      exact absurd (by simp) hx

theorem mention?_text_of_ne (h : f.Named) (hs : f.sort ≠ s) :
    mention? s (indent ++ f.text) = none := by
  by_contra hne
  obtain ⟨a, t, ht, -⟩ := mentions_iff_mention?.mpr hne
  have hindent : ':' ∉ indent := by decide
  have hmiddle : ':' ∉ f.keyword ++ f.label := by
    simp only [List.mem_append, not_or]
    exact ⟨Field.not_mem_keyword (by decide) f, Field.not_mem_label h (by decide) (by decide)⟩
  rw [Field.text_eq, ← List.append_assoc f.keyword] at ht
  -- the colon is the first of the field, or the one behind its keyword
  rcases first_or_behind hindent ht with ⟨-, hword⟩ | ⟨m, hm⟩
  · revert hs hword
    rw [← f.keyword_sort]
    cases f.sort <;> cases s <;>
      simp [FieldSort.keyword, paramWord, returnWord, yieldWord, raiseWord]
  · rcases first_or_behind hmiddle hm with ⟨-, hword⟩ | ⟨m', hm'⟩
    · revert hword
      cases s <;> simp [FieldSort.keyword, paramWord, returnWord, yieldWord, raiseWord]
    · have hbody : ':' ∉ ' ' :: f.body := by
        simp only [List.mem_cons, not_or]
        exact ⟨by decide, Field.not_mem_body h (by decide) (by decide) (by decide)⟩
      exact hbody (by simp [hm'])

/-! ## The lines of a docstring -/

def docLines (fs : List Field) : List Text :=
  ['"', '"', '"'] :: (indent ++ ['S', 'u', 'm', 'm', 'a', 'r', 'y']) :: [] ::
    fs.map (indent ++ ·.text)

theorem docText_eq_ended (fs : List Field) : docText fs = ended '\n' (docLines fs) ++ closing := by
  have hfields : fs.flatMap (fun f => line f.text) = ended '\n' (fs.map (indent ++ ·.text)) := by
    rw [ended, List.flatMap_map]
    simp [line]
  rw [docText_eq, fieldLines, hfields]
  simp [docLines, summary, line]

theorem splitOn_docText (hfs : ∀ f ∈ fs, f.Named) :
    Text.splitOn '\n' (docText fs) = docLines fs ++ [closing] := by
  rw [docText_eq_ended]
  refine Text.splitOn_ended ?_ (by decide)
  simp only [docLines, List.forall_mem_cons, List.forall_mem_map]
  refine ⟨by decide, by decide, by decide, fun f hf hmem => ?_⟩
  rcases List.mem_append.mp hmem with hmem | hmem
  · exact absurd hmem (by decide)
  · exact Field.not_mem_text (hfs f hf) (by decide) (by decide) hmem

theorem found_fields (hfs : ∀ f ∈ fs, f.Named) (s : FieldSort) (inside : Bool) :
    found s inside (fs.map (indent ++ ·.text)) =
      fs.filterMap fun f => if f.sort = s then some f.name else none := by
  induction fs generalizing inside with
  | nil => rfl
  | cons f fs ih =>
    obtain ⟨hf, hfs⟩ := List.forall_mem_cons.mp hfs
    have houtside : (inside && isText (indent ++ f.text)) = false := by
      rw [isText_text hf, Bool.and_false]
    rw [List.map_cons, List.filterMap_cons]
    by_cases hs : f.sort = s
    · subst hs
      rw [found_of_mention houtside (mention?_of_field? (field?_text hf)), ih hfs, if_pos rfl]
    · rw [found_of_none houtside (mention?_text_of_ne hf hs), ih hfs, if_neg hs]

/-- Every field of the sort is found in a docstring, in order. -/
theorem found_docText (hfs : ∀ f ∈ fs, f.Named) (s : FieldSort) :
    found s false (Text.splitOn '\n' (docText fs)) =
      fs.filterMap fun f => if f.sort = s then some f.name else none := by
  have hskip : ∀ {l : Text} {ls : List Text}, ':' ∉ l →
      found s false (l :: ls) = found s false ls :=
    fun hl => found_of_none rfl (mention?_eq_none_of_not_mem hl)
  rw [splitOn_docText hfs, found_append_of_not_mem (by decide), docLines, hskip (by decide),
    hskip (by decide), hskip (by decide), found_fields hfs]

/-- A docstring whose fields stand in the order of the template has the standard form. -/
theorem hasForm_docText (hfs : ∀ f ∈ fs, f.Named)
    (hsorted : fs.Pairwise fun f g => f.sort.rank ≤ g.sort.rank) : HasForm (docText fs) := by
  have htext : IsText (indent ++ ['S', 'u', 'm', 'm', 'a', 'r', 'y']) :=
    ⟨indent, 'S', _, rfl, isBlank_indent, by decide, by decide⟩
  have hblank : IsBlank [] := fun c hc => absurd hc List.not_mem_nil
  have hrest : ∀ l ∈ [] :: fs.map (indent ++ ·.text), ¬ IsText l := by
    rw [List.forall_mem_cons, List.forall_mem_map]
    exact ⟨not_isText_of_isBlank hblank,
      fun f hf => not_isText_of_isField (isField_text (hfs f hf))⟩
  have hsplit : Text.splitOn '\n' (docText fs) = ['"', '"', '"'] ::
      ((indent ++ ['S', 'u', 'm', 'm', 'a', 'r', 'y']) :: [] :: fs.map (indent ++ ·.text) ++
        [closing]) := splitOn_docText hfs
  refine .manyLines _ _ _ hsplit
    ⟨[], ['"', '"', '"'], [], rfl, hblank, Or.inl rfl⟩ ⟨?_, ?_, ?_⟩
    ⟨indent, _, rfl, isBlank_indent, Or.inl rfl⟩
  · rw [List.forall_mem_cons, List.forall_mem_cons, List.forall_mem_map]
    exact ⟨Or.inr (Or.inl htext), Or.inl hblank, fun f hf =>
      Or.inr (Or.inr ⟨f.sort, isField_text (hfs f hf)⟩)⟩
  · refine .cons (fun l _ s s' hs => absurd htext (not_isText_of_isField hs))
      (.cons (fun l _ s s' hs => absurd hblank (not_isBlank_of_isField hs)) ?_)
    refine List.pairwise_map.mpr (hsorted.imp_of_mem fun {f g} hf hg hle s s' hs hs' => ?_)
    rwa [isField_unique hs (isField_text (hfs f hf)), isField_unique hs' (isField_text (hfs g hg))]
  · -- the only line of text is the first, so none follows a blank line
    intro a k l b heq _ hl
    cases a with
    | nil =>
      obtain ⟨rfl, htail⟩ := List.cons.inj heq
      exact absurd hl (hrest l (by rw [htail]; exact List.mem_cons_self))
    | cons x a =>
      exact absurd hl (hrest l (by rw [(List.cons.inj heq).2]; simp))

end

end Standard

/-- What a callable declares, or a docstring documents: its parameters, the number of its returns
and yields, and the errors that it raises. -/
structure Interface where
  inputs : List Text
  returns : Nat
  yields : Nat
  raises : List Text

namespace Interface

open Standard

/-- The names are names of ASCII. -/
structure Named (i : Interface) : Prop where
  inputs : ∀ p ∈ i.inputs, p.AsciiIdentifier
  raises : ∀ e ∈ i.raises, e.AsciiDotted

instance : DecidablePred Named := fun i =>
  decidable_of_iff ((i.inputs.all fun p => p.AsciiIdentifier) = true ∧
      (i.raises.all fun e => e.AsciiDotted) = true)
    ⟨fun h => ⟨by simpa using h.1, by simpa using h.2⟩,
      fun h => ⟨by simpa using h.inputs, by simpa using h.raises⟩⟩

/-- The fields of a docstring that documents an interface, in the order of the template. -/
def fields (i : Interface) : List Field :=
  i.inputs.map .param ++ (List.replicate i.returns .returns ++
    (List.replicate i.yields .yields ++ i.raises.map .raises))

theorem Named.fields {i : Interface} (h : i.Named) : ∀ f ∈ i.fields, f.Named := by
  intro f hf
  simp only [Interface.fields, List.mem_append, List.mem_map, List.mem_replicate] at hf
  rcases hf with ⟨p, hp, rfl⟩ | ⟨-, rfl⟩ | ⟨-, rfl⟩ | ⟨x, hx, rfl⟩
  · exact h.inputs p hp
  · trivial
  · trivial
  · exact h.raises x hx

theorem sorted_fields (i : Interface) :
    i.fields.Pairwise fun f g => f.sort.rank ≤ g.sort.rank := by
  have hsorts : i.fields.map Field.sort = List.replicate i.inputs.length .params ++
      (List.replicate i.returns .returns ++
        (List.replicate i.yields .yields ++ List.replicate i.raises.length .raises)) := by
    simp [fields, Function.comp_def, Field.sort]
  have hsorted : (i.fields.map Field.sort).Pairwise fun s s' => s.rank ≤ s'.rank := by
    rw [hsorts]
    simp [List.pairwise_append, List.pairwise_replicate, FieldSort.rank, or_imp, forall_and]
  rwa [List.pairwise_map] at hsorted

/-- A docstring with the fields of an interface has the form of the template. -/
theorem accepts_fields {i : Interface} (h : i.Named) :
    Grammar.standard.accepts (docText i.fields) = true :=
  Grammar.accepts_standard_iff.mpr (hasForm_docText h.fields i.sorted_fields)

theorem found_fields {i : Interface} (h : i.Named) (s : FieldSort) :
    found s false (Text.splitOn '\n' (docText i.fields)) =
      match s with
      | .params => i.inputs
      | .returns => List.replicate i.returns []
      | .yields => List.replicate i.yields []
      | .raises => i.raises := by
  rw [found_docText h.fields]
  cases s <;> simp [fields, Field.sort, Field.name]

theorem parameters_fields {i : Interface} (h : i.Named) :
    Grammar.standard.parameters (docText i.fields) = i.inputs :=
  ((hasForm_docText h.fields i.sorted_fields).namesOf_matcher (s := .params) fun _ => rfl).trans
    (found_fields h .params)

theorem raisedNames_fields {i : Interface} (h : i.Named) :
    Grammar.standard.raisedNames (docText i.fields) = i.raises :=
  ((hasForm_docText h.fields i.sorted_fields).namesOf_matcher (s := .raises) fun _ => rfl).trans
    (found_fields h .raises)

theorem returnCount_fields {i : Interface} (h : i.Named) :
    Grammar.standard.returnCount (docText i.fields) = i.returns := by
  have hlength := (hasForm_docText h.fields i.sorted_fields).length_matcher .returns
  rwa [found_fields h, List.length_replicate] at hlength

theorem yieldCount_fields {i : Interface} (h : i.Named) :
    Grammar.standard.yieldCount (docText i.fields) = i.yields := by
  have hlength := (hasForm_docText h.fields i.sorted_fields).length_matcher .yields
  rwa [found_fields h, List.length_replicate] at hlength

end Interface

end DocCoverage
