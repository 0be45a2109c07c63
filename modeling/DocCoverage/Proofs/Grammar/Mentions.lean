import DocCoverage.Proofs.Grammar.Lines
import DocCoverage.Proofs.Text.Cut

/-!
# Fields that lines mention

A docstring documents the fields at the front of its lines. A field can also be mentioned behind
other text, in the summary or in the explanation of another field. Going through the lines, every
mention counts, except in the lines of text that continue a line with a mention.
-/
namespace DocCoverage.Standard

open Text (isWord)

namespace FieldSort

/-- What stands behind the keyword of a field with the given name; only parameters and errors have
one. -/
def Names : FieldSort → Text → Text → Prop
  | params, n, t => ∃ gap rest, t = gap ++ (n ++ ':' :: rest) ∧ IsBlank gap ∧ gap ≠ [] ∧ n ≠ [] ∧
      ∀ c ∈ n, isWord c = true
  | returns, n, t => n = [] ∧ ∃ rest, t = ':' :: rest ∨ t = 's' :: ':' :: rest
  | yields, n, t => n = [] ∧ ∃ rest, t = ':' :: rest ∨ t = 's' :: ':' :: rest
  | raises, n, t => ∃ gap rest,
      (t = ':' :: (gap ++ (n ++ rest)) ∨ t = 's' :: ':' :: (gap ++ (n ++ rest))) ∧
      IsBlank gap ∧ gap ≠ [] ∧ n ≠ [] ∧ (∀ c ∈ n, (isWord c || c == '.') = true) ∧
      ∀ c, rest.head? = some c → (isWord c || c == '.') = false

/-- What stands behind spaces, if there is one at least. -/
def gap? : Text → Option Text
  | ' ' :: t => some (t.dropWhile (· == ' '))
  | _ => none

/-- What stands behind the colon of a keyword that may be in the plural. -/
def colon? : Text → Option Text
  | ':' :: t => some t
  | 's' :: ':' :: t => some t
  | _ => none

/-- A name at the front of a text, as long as possible. -/
def word? (p : Char → Bool) (t : Text) : Option Text :=
  if (t.takeWhile p).isEmpty then none else some (t.takeWhile p)

/-- The name of a field, from what stands behind its keyword. -/
def name? : FieldSort → Text → Option Text
  | params, t => do
    let t ← gap? t
    let n ← word? isWord t
    if (t.dropWhile isWord).head? = some ':' then some n else none
  | returns, t => (colon? t).map fun _ => []
  | yields, t => (colon? t).map fun _ => []
  | raises, t => do
    let t ← colon? t
    let t ← gap? t
    word? (fun c => isWord c || c == '.') t

end FieldSort

/-- The name in the field of the sort at the front of a text. -/
def fieldAt? (s : FieldSort) (t : Text) : Option Text :=
  (Text.dropPrefix? (':' :: s.keyword) t).bind s.name?

/-- The name in the first field of the sort that a line mentions. -/
def mention? (s : FieldSort) : Text → Option Text
  | [] => none
  | c :: t => (fieldAt? s (c :: t)).or (mention? s t)

/-- The name in the field of the sort that a line is, behind spaces. -/
def field? (s : FieldSort) (l : Text) : Option Text := fieldAt? s (l.dropWhile (· == ' '))

/-- The names in the fields of the sort. -/
def documented (s : FieldSort) (ls : List Text) : List Text := ls.filterMap (field? s)

/-- The first character other than a space is neither whitespace nor a colon. -/
def isText (l : Text) : Bool :=
  (l.dropWhile (· == ' ')).head?.any fun c => !Text.isBlank c && c != ':'

/-- The names in the mentions of the sort, where the lines stand behind a mention or not. -/
def found (s : FieldSort) : (inside : Bool) → List Text → List Text
  | _, [] => []
  | inside, l :: ls =>
    if inside && isText l then found s true ls
    else match mention? s l with
      | some n => n :: found s true ls
      | none => found s false ls

/-- A field of the sort somewhere in a line. -/
def Mentions (s : FieldSort) (l : Text) : Prop := ∃ a t, l = a ++ ':' :: (s.keyword ++ t) ∧ s.Goes t

/-- Lines that end with a field of the sort and lines of text behind it. -/
def EndsInField (s : FieldSort) (ls : List Text) : Prop :=
  ∃ front f ts, ls = front ++ f :: ts ∧ IsField s f ∧ ∀ l ∈ ts, IsText l

/-- Every mention of the sort is in a field of the sort or in a line of text that continues one. -/
def Unmistaken (s : FieldSort) (ls : List Text) : Prop :=
  ∀ front l rest, ls = front ++ l :: rest → Mentions s l →
    IsField s l ∨ IsText l ∧ EndsInField s front

/-! ## Reading off a field -/

section

variable {s : FieldSort} {t u l n : Text} {p : Char → Bool}

theorem takeWhile_eq_and_dropWhile_eq_iff :
    (t.takeWhile p = n ∧ t.dropWhile p = u) ↔
      t = n ++ u ∧ (∀ c ∈ n, p c = true) ∧ ∀ c, u.head? = some c → p c = false := by
  have hcut : t.takeWhile p ++ t.dropWhile p = t := List.takeWhile_append_dropWhile
  have hfront : ∀ c ∈ t.takeWhile p, p c = true := fun c hc => List.mem_takeWhile_imp hc
  have hback : ∀ c, (t.dropWhile p).head? = some c → p c = false := fun c hc => by
    simpa [hc] using List.head?_dropWhile_not p t
  constructor
  · intro h
    obtain ⟨rfl, rfl⟩ := h
    exact ⟨hcut.symm, hfront, hback⟩
  · intro h
    obtain ⟨ht, hn, hu⟩ := h
    exact Text.span_unique (hcut.trans ht) hfront hn hback hu

theorem head_of_word (hn : n ≠ []) (hword : ∀ c ∈ n, p c = true) (hp : p ' ' = false) (v : Text) :
    ∀ c, (n ++ v).head? = some c → (c == ' ') = false := by
  obtain ⟨d, n, rfl⟩ := List.exists_cons_of_ne_nil hn
  refine head_eq (Bool.eq_false_iff.mpr fun hd => ?_)
  have hspace := hword d List.mem_cons_self
  rw [eq_of_beq hd, hp] at hspace
  cases hspace

theorem FieldSort.gap?_eq_some_iff : FieldSort.gap? t = some u ↔
    ∃ gap, t = gap ++ u ∧ IsBlank gap ∧ gap ≠ [] ∧ ∀ c, u.head? = some c → (c == ' ') = false := by
  constructor
  · intro h
    unfold FieldSort.gap? at h
    split at h
    · rename_i t
      obtain ⟨hcut, hblank, hhead⟩ := takeWhile_eq_and_dropWhile_eq_iff.mp
        ⟨(rfl : t.takeWhile (· == ' ') = _), Option.some.inj h⟩
      refine ⟨' ' :: t.takeWhile (· == ' '), congrArg _ hcut, ?_, List.cons_ne_nil _ _, hhead⟩
      exact List.forall_mem_cons.mpr ⟨rfl, fun c hc => eq_of_beq (hblank c hc)⟩
    · cases h
  · intro h
    obtain ⟨gap, rfl, hgap, hne, hhead⟩ := h
    obtain ⟨c, gap, rfl⟩ := List.exists_cons_of_ne_nil hne
    obtain ⟨rfl, hgap⟩ := List.forall_mem_cons.mp hgap
    have hcut := takeWhile_eq_and_dropWhile_eq_iff.mpr
      ⟨rfl, fun c hc => beq_iff_eq.mpr (hgap c hc), hhead⟩
    exact congrArg some hcut.2

theorem FieldSort.colon?_eq_some_iff :
    FieldSort.colon? t = some u ↔ t = ':' :: u ∨ t = 's' :: ':' :: u := by
  unfold FieldSort.colon?
  split <;> simp_all

theorem FieldSort.word?_eq_some_iff : FieldSort.word? p t = some n ↔
    ∃ rest, t = n ++ rest ∧ n ≠ [] ∧ (∀ c ∈ n, p c = true) ∧
      ∀ c, rest.head? = some c → p c = false := by
  unfold FieldSort.word?
  constructor
  · intro h
    split at h
    · cases h
    · rename_i hne
      obtain ⟨hcut, hword, hhead⟩ := takeWhile_eq_and_dropWhile_eq_iff.mp
        ⟨Option.some.inj h, (rfl : t.dropWhile p = _)⟩
      rw [Option.some.inj h, List.isEmpty_iff] at hne
      exact ⟨_, hcut, hne, hword, hhead⟩
  · intro h
    obtain ⟨rest, ht, hne, hword, hhead⟩ := h
    rw [(takeWhile_eq_and_dropWhile_eq_iff.mpr ⟨ht, hword, hhead⟩).1]
    exact if_neg (by simpa using hne)

theorem FieldSort.name?_eq_some_iff : s.name? t = some n ↔ s.Names n t := by
  have hplural : (FieldSort.colon? t).map (fun _ => ([] : Text)) = some n ↔
      n = [] ∧ ∃ rest, t = ':' :: rest ∨ t = 's' :: ':' :: rest := by
    simp only [Option.map_eq_some_iff, FieldSort.colon?_eq_some_iff]
    constructor
    · intro h
      obtain ⟨rest, hrest, rfl⟩ := h
      exact ⟨rfl, rest, hrest⟩
    · intro h
      obtain ⟨rfl, rest, hrest⟩ := h
      exact ⟨rest, hrest, rfl⟩
  cases s with
  | params =>
    simp only [FieldSort.name?, FieldSort.Names, Option.bind_eq_bind, Option.bind_eq_some_iff,
      FieldSort.gap?_eq_some_iff, FieldSort.word?_eq_some_iff]
    constructor
    · intro h
      obtain ⟨u, ⟨gap, rfl, hgap, hne, -⟩, n', ⟨rest, rfl, hn, hword, hhead⟩, hcolon⟩ := h
      have hcut := takeWhile_eq_and_dropWhile_eq_iff.mpr ⟨rfl, hword, hhead⟩
      rw [hcut.2] at hcolon
      split at hcolon
      · rename_i hrest
        obtain rfl := Option.some.inj hcolon
        obtain ⟨rest, rfl⟩ := List.head?_eq_some_iff.mp hrest
        exact ⟨gap, rest, rfl, hgap, hne, hn, hword⟩
      · cases hcolon
    · intro h
      obtain ⟨gap, rest, rfl, hgap, hne, hn, hword⟩ := h
      have hhead := head_eq (c := ':') (r := rest) (p := isWord) (by decide)
      refine ⟨_, ⟨gap, rfl, hgap, hne, head_of_word hn hword (by decide) _⟩, n,
        ⟨':' :: rest, rfl, hn, hword, hhead⟩, ?_⟩
      rw [(takeWhile_eq_and_dropWhile_eq_iff.mpr ⟨rfl, hword, hhead⟩).2]
      rfl
  | returns => exact hplural
  | yields => exact hplural
  | raises =>
    simp only [FieldSort.name?, FieldSort.Names, Option.bind_eq_bind, Option.bind_eq_some_iff,
      FieldSort.colon?_eq_some_iff, FieldSort.gap?_eq_some_iff, FieldSort.word?_eq_some_iff]
    constructor
    · intro h
      obtain ⟨_, ht, _, ⟨gap, rfl, hgap, hne, -⟩, rest, rfl, hn, hword, hhead⟩ := h
      exact ⟨gap, rest, ht, hgap, hne, hn, hword, hhead⟩
    · intro h
      obtain ⟨gap, rest, ht, hgap, hne, hn, hword, hhead⟩ := h
      exact ⟨_, ht, n ++ rest, ⟨gap, rfl, hgap, hne, head_of_word hn hword (by decide) _⟩, rest,
        rfl, hn, hword, hhead⟩

/-- Where a field goes on as its sort asks, it has a name. -/
theorem FieldSort.goes_iff : s.Goes t ↔ ∃ n, s.Names n t := by
  cases s with
  | params =>
    constructor
    · intro h
      obtain ⟨gap, n, rest, h⟩ := h
      exact ⟨n, gap, rest, h⟩
    · intro h
      obtain ⟨n, gap, rest, h⟩ := h
      exact ⟨gap, n, rest, h⟩
  | returns => exact ⟨fun h => ⟨[], rfl, h⟩, fun ⟨_, _, h⟩ => h⟩
  | yields => exact ⟨fun h => ⟨[], rfl, h⟩, fun ⟨_, _, h⟩ => h⟩
  | raises =>
    constructor
    · intro h
      obtain ⟨gap, c, rest, ht, hgap, hne, hc⟩ := h
      obtain ⟨hcut, hword, hhead⟩ := takeWhile_eq_and_dropWhile_eq_iff (t := c :: rest)
        (p := fun c => isWord c || c == '.') |>.mp ⟨rfl, rfl⟩
      refine ⟨_, gap, _, ?_, hgap, hne, ?_, hword, hhead⟩
      · rw [← hcut]
        exact ht
      · rw [List.takeWhile_cons_of_pos (by simpa using hc)]
        exact List.cons_ne_nil _ _
    · intro h
      obtain ⟨n, gap, rest, ht, hgap, hne, hn, hword, -⟩ := h
      obtain ⟨c, n, rfl⟩ := List.exists_cons_of_ne_nil hn
      exact ⟨gap, c, n ++ rest, ht, hgap, hne, by simpa using hword c List.mem_cons_self⟩

theorem fieldAt?_eq_some_iff :
    fieldAt? s t = some n ↔ ∃ u, t = ':' :: (s.keyword ++ u) ∧ s.Names n u := by
  simp only [fieldAt?, Option.bind_eq_some_iff, Text.dropPrefix?_eq_some_iff,
    FieldSort.name?_eq_some_iff, List.cons_append]

theorem fieldAt?_ne_none_iff :
    fieldAt? s t ≠ none ↔ ∃ u, t = ':' :: (s.keyword ++ u) ∧ s.Goes u := by
  simp only [Option.ne_none_iff_exists', fieldAt?_eq_some_iff, FieldSort.goes_iff]
  rw [exists_comm]
  simp only [exists_and_left]

/-! ## Lines -/

theorem isText_iff : isText l = true ↔ IsText l := by
  have hcut : l.takeWhile (· == ' ') ++ l.dropWhile (· == ' ') = l :=
    List.takeWhile_append_dropWhile
  simp only [isText, Option.any_eq_true, Bool.and_eq_true, Bool.not_eq_true', bne_iff_ne]
  constructor
  · intro h
    obtain ⟨c, hc, hblank, hcolon⟩ := h
    obtain ⟨b, hb⟩ := List.head?_eq_some_iff.mp hc
    refine ⟨_, c, b, by rw [← hb, hcut], fun d hd => ?_, hblank, hcolon⟩
    exact eq_of_beq (List.mem_takeWhile_imp (p := (· == ' ')) hd)
  · intro h
    obtain ⟨a, c, b, rfl, ha, hblank, hcolon⟩ := h
    have hspace : (c == ' ') = false := by
      rw [beq_eq_false_iff_ne]
      rintro rfl
      cases hblank
    rw [(takeWhile_eq_and_dropWhile_eq_iff.mpr
      ⟨rfl, fun d hd => beq_iff_eq.mpr (ha d hd), head_eq hspace⟩).2]
    exact ⟨c, rfl, hblank, hcolon⟩

theorem isField_iff_field? : IsField s l ↔ field? s l ≠ none := by
  have hcut : l.takeWhile (· == ' ') ++ l.dropWhile (· == ' ') = l :=
    List.takeWhile_append_dropWhile
  rw [field?, fieldAt?_ne_none_iff]
  constructor
  · intro h
    obtain ⟨a, t, rfl, ha, hgoes⟩ := h
    rw [(takeWhile_eq_and_dropWhile_eq_iff.mpr
      ⟨rfl, fun d hd => beq_iff_eq.mpr (ha d hd), head_eq (by decide)⟩).2]
    exact ⟨t, rfl, hgoes⟩
  · intro h
    obtain ⟨t, ht, hgoes⟩ := h
    refine ⟨_, t, by rw [← ht, hcut], fun d hd => ?_, hgoes⟩
    exact eq_of_beq (List.mem_takeWhile_imp (p := (· == ' ')) hd)

theorem mention?_eq_none_iff : mention? s l = none ↔ ∀ a t, l = a ++ t → fieldAt? s t = none := by
  induction l with
  | nil =>
    refine iff_of_true rfl fun a t hat => ?_
    rw [(List.append_eq_nil_iff.mp hat.symm).2]
    rfl
  | cons c l ih =>
    rw [mention?, Option.or_eq_none_iff, ih]
    constructor
    · intro h a t hat
      cases a with
      | nil =>
        rw [← show c :: l = t from hat]
        exact h.1
      | cons d a => exact h.2 a t (List.cons.inj hat).2
    · intro h
      exact ⟨h [] _ rfl, fun a t hat => h (c :: a) t (congrArg _ hat)⟩

theorem exists_of_mention? (h : mention? s l = some n) : ∃ a t, l = a ++ t ∧
    fieldAt? s t = some n ∧ ∀ b c, a = b ++ c → c ≠ [] → fieldAt? s (c ++ t) = none := by
  induction l with
  | nil => cases h
  | cons c l ih =>
    rw [mention?, Option.or_eq_some_iff] at h
    rcases h with h | ⟨hnone, h⟩
    · refine ⟨[], c :: l, rfl, h, fun b c hbc hc => ?_⟩
      exact absurd (List.append_eq_nil_iff.mp hbc.symm).2 hc
    · obtain ⟨a, t, rfl, hfield, hfirst⟩ := ih h
      refine ⟨c :: a, t, rfl, hfield, ?_⟩
      intro b e hbe he
      cases b with
      | nil => rwa [← show c :: a = e from hbe]
      | cons d b => exact hfirst b e (List.cons.inj hbe).2 he

theorem mentions_iff_mention? : Mentions s l ↔ mention? s l ≠ none := by
  rw [← not_iff_not, not_not, mention?_eq_none_iff]
  constructor
  · intro h a t hat
    by_contra hne
    obtain ⟨u, hu, hgoes⟩ := fieldAt?_ne_none_iff.mp hne
    exact h ⟨a, u, hat.trans (congrArg _ hu), hgoes⟩
  · intro h hmentions
    obtain ⟨a, u, hau, hgoes⟩ := hmentions
    exact fieldAt?_ne_none_iff.mpr ⟨u, rfl, hgoes⟩ (h a _ hau)

theorem mention?_eq_none_of_not_mem (h : ':' ∉ l) : mention? s l = none := by
  by_contra hne
  obtain ⟨a, t, rfl, -⟩ := mentions_iff_mention?.mpr hne
  exact h (by simp)

/-- A field is mentioned by its own line. -/
theorem mention?_of_field? (h : field? s l = some n) : mention? s l = some n := by
  induction l with
  | nil => exact h
  | cons c l ih =>
    rw [field?] at h
    rw [mention?]
    by_cases hc : c = ' '
    · subst hc
      have hnone : fieldAt? s (' ' :: l) = none := by
        by_contra hne
        obtain ⟨u, hu, -⟩ := fieldAt?_ne_none_iff.mp hne
        exact absurd (List.cons.inj hu).1 (by decide)
      rw [hnone, Option.none_or]
      exact ih h
    · rw [List.dropWhile_cons_of_neg (by simpa using hc)] at h
      rw [h, Option.some_or]

/-! ## Mentions in several lines -/

variable {ls : List Text} {inside : Bool}

theorem found_of_text (h : isText l = true) : found s true (l :: ls) = found s true ls := by
  rw [found, h]
  rfl

theorem found_of_mention (hl : (inside && isText l) = false) (h : mention? s l = some n) :
    found s inside (l :: ls) = n :: found s true ls := by
  rw [found, hl, h]
  rfl

theorem found_of_none (hl : (inside && isText l) = false) (h : mention? s l = none) :
    found s inside (l :: ls) = found s false ls := by
  rw [found, hl, h]
  rfl

theorem field?_of_isText (h : isText l = true) : field? s l = none := by
  by_contra hne
  exact not_isText_of_isField (isField_iff_field?.mpr hne) (isText_iff.mp h)

theorem documented_sublist (s : FieldSort) (inside : Bool) (ls : List Text) :
    (documented s ls).Sublist (found s inside ls) := by
  induction ls generalizing inside with
  | nil => exact List.Sublist.slnil
  | cons l ls ih =>
    rw [documented, List.filterMap_cons]
    cases hl : inside && isText l with
    | true =>
      rw [Bool.and_eq_true] at hl
      obtain ⟨rfl, htext⟩ := hl
      rw [field?_of_isText htext, found_of_text htext]
      exact ih true
    | false =>
      cases hfield : field? s l with
      | some n =>
        rw [found_of_mention hl (mention?_of_field? hfield)]
        exact (ih true).cons_cons n
      | none =>
        cases hmention : mention? s l with
        | some n =>
          rw [found_of_mention hl hmention]
          exact (ih true).cons n
        | none =>
          rw [found_of_none hl hmention]
          exact ih false

/-- Lines of text behind a field of the sort, or behind a mention that stands in front of all the
lines. -/
def ContinuesIn (s : FieldSort) (inside : Bool) (ls : List Text) : Prop :=
  inside = true ∧ (∀ l ∈ ls, IsText l) ∨ EndsInField s ls

theorem not_endsInField_nil : ¬ EndsInField s [] := by
  intro h
  obtain ⟨front, f, ts, hnil, -, -⟩ := h
  simp at hnil

theorem continuesIn_cons (after : Bool)
    (hafter : after = true ↔ inside = true ∧ IsText l ∨ IsField s l) :
    ContinuesIn s inside (l :: ls) ↔ ContinuesIn s after ls := by
  constructor
  · intro h
    rcases h with ⟨hinside, hall⟩ | ⟨front, f, ts, heq, hf, hts⟩
    · obtain ⟨hl, hls⟩ := List.forall_mem_cons.mp hall
      exact Or.inl ⟨hafter.mpr (Or.inl ⟨hinside, hl⟩), hls⟩
    · cases front with
      | nil =>
        obtain ⟨rfl, rfl⟩ := List.cons.inj heq
        exact Or.inl ⟨hafter.mpr (Or.inr hf), hts⟩
      | cons k front => exact Or.inr ⟨front, f, ts, (List.cons.inj heq).2, hf, hts⟩
  · intro h
    rcases h with ⟨htrue, hls⟩ | ⟨front, f, ts, rfl, hf, hts⟩
    · rcases hafter.mp htrue with ⟨hinside, hl⟩ | hfield
      · exact Or.inl ⟨hinside, List.forall_mem_cons.mpr ⟨hl, hls⟩⟩
      · exact Or.inr ⟨[], l, ls, rfl, hfield, hls⟩
    · exact Or.inr ⟨l :: front, f, ts, rfl, hf, hts⟩

/-- Every mention of the sort is in a field or continues one, where the lines stand behind a
mention or not. -/
def UnmistakenIn (s : FieldSort) (inside : Bool) (ls : List Text) : Prop :=
  ∀ front l rest, ls = front ++ l :: rest → Mentions s l →
    IsField s l ∨ IsText l ∧ ContinuesIn s inside front

theorem unmistakenIn_cons (after : Bool)
    (hafter : after = true ↔ inside = true ∧ IsText l ∨ IsField s l) :
    UnmistakenIn s inside (l :: ls) ↔
      (Mentions s l → IsField s l ∨ IsText l ∧ inside = true) ∧ UnmistakenIn s after ls := by
  constructor
  · intro h
    refine ⟨fun hl => ?_, fun front k rest heq hk => ?_⟩
    · refine (h [] l ls rfl hl).imp_right (And.imp_right fun hcontinues => ?_)
      exact (hcontinues.resolve_right not_endsInField_nil).1
    · have hfront := h (l :: front) k rest (congrArg _ heq) hk
      rwa [continuesIn_cons after hafter] at hfront
  · intro h front m rest heq hm
    cases front with
    | nil =>
      obtain ⟨rfl, rfl⟩ := List.cons.inj heq
      exact (h.1 hm).imp_right (And.imp_right fun hinside => Or.inl ⟨hinside, by simp⟩)
    | cons k front =>
      obtain ⟨rfl, rfl⟩ := List.cons.inj heq
      rw [continuesIn_cons after hafter]
      exact h.2 front m rest rfl hm

theorem length_found_iff_of_inside (s : FieldSort) (inside : Bool) (ls : List Text) :
    (found s inside ls).length = (documented s ls).length ↔ UnmistakenIn s inside ls := by
  induction ls generalizing inside with
  | nil => exact iff_of_true rfl fun front l rest heq => by simp at heq
  | cons l ls ih =>
    cases hl : inside && isText l with
    | true =>
      rw [Bool.and_eq_true] at hl
      obtain ⟨rfl, htext⟩ := hl
      rw [unmistakenIn_cons true (iff_of_true rfl (Or.inl ⟨rfl, isText_iff.mp htext⟩)),
        found_of_text htext, documented, List.filterMap_cons_none (field?_of_isText htext)]
      exact (ih true).trans (iff_and_self.mpr fun _ _ => Or.inr ⟨isText_iff.mp htext, rfl⟩)
    | false =>
      have houtside : ¬ (inside = true ∧ IsText l) := by
        rw [← isText_iff, ← Bool.and_eq_true, hl]
        exact Bool.false_ne_true
      cases hfield : field? s l with
      | some n =>
        have hisField : IsField s l := isField_iff_field?.mpr (by simp [hfield])
        rw [unmistakenIn_cons true (iff_of_true rfl (Or.inr hisField)),
          found_of_mention hl (mention?_of_field? hfield), documented,
          List.filterMap_cons_some hfield, List.length_cons, List.length_cons, Nat.succ_inj]
        exact (ih true).trans (iff_and_self.mpr fun _ _ => Or.inl hisField)
      | none =>
        have hother : ¬ IsField s l := fun h => isField_iff_field?.mp h hfield
        rw [unmistakenIn_cons false
          (iff_of_false Bool.false_ne_true (not_or.mpr ⟨houtside, hother⟩)), documented,
          List.filterMap_cons_none hfield]
        cases hmention : mention? s l with
        | some n =>
          -- a mention that is no field and continues none is one too many
          rw [found_of_mention hl hmention]
          refine iff_of_false (fun heq => ?_) fun h => ?_
          · have hle := (documented_sublist s true ls).length_le
            rw [List.length_cons, documented] at *
            omega
          · rcases h.1 (mentions_iff_mention?.mpr (by simp [hmention])) with h | h
            · exact hother h
            · exact houtside h.symm
        | none =>
          rw [found_of_none hl hmention]
          exact (ih false).trans (iff_and_self.mpr fun _ h =>
            absurd hmention (mentions_iff_mention?.mp h))

/-- As many names are found as there are fields exactly if every mention is in a field or continues
one. -/
theorem length_found_iff (s : FieldSort) (ls : List Text) :
    (found s false ls).length = (documented s ls).length ↔ Unmistaken s ls := by
  rw [length_found_iff_of_inside]
  simp [UnmistakenIn, Unmistaken, ContinuesIn]

/-- In that case the names are the same. -/
theorem found_eq_documented_iff (s : FieldSort) (ls : List Text) :
    found s false ls = documented s ls ↔ Unmistaken s ls := by
  rw [← length_found_iff]
  refine ⟨congrArg List.length, fun hlen => ?_⟩
  exact ((documented_sublist s false ls).eq_of_length hlen.symm).symm

end

end DocCoverage.Standard
