import DocCoverage.Proofs.Locality.Lines
import Mathlib.Data.List.Find
import Mathlib.Data.List.TakeWhile

/-!
# Looking ahead into comments

Of all rules only that of class attributes looks into a comment, namely through an annotation that
stands in front of the comment without a value. It then looks for an equals sign in the comment.
-/
namespace DocCoverage.Rule

/-- The first equals sign or line feed is an assignment. -/
def assignsLater (t : Text) : Bool := assigns (t.dropWhile fun d => !(d == '=' || d == '\n'))

/-- The rest of a name and an annotation to which no value is assigned so far. -/
def annotated (t : Text) : Bool :=
  match skipSpaces (t.dropWhile Text.isWord) with
  | ':' :: rest => !(rest.contains '=' || rest.contains '\n')
  | _ => false

theorem annotated_iff {u : Text} : annotated u = true ↔
    ∃ rest, skipSpaces (u.dropWhile Text.isWord) = ':' :: rest ∧ '=' ∉ rest ∧ '\n' ∉ rest := by
  unfold annotated
  split
  · rename_i rest hrest
    simp [hrest]
  · rename_i hother
    simp only [Bool.false_eq_true, false_iff]
    rintro ⟨rest, hrest, -⟩
    exact hother rest hrest

theorem lineFeed_notMem_annotated {u : Text} (h : annotated u = true) : '\n' ∉ u := by
  obtain ⟨rest, hrest, -, hfeed⟩ := annotated_iff.mp h
  intro hmem
  rw [← List.takeWhile_append_dropWhile (p := Text.isWord) (l := u), List.mem_append] at hmem
  rcases hmem with hmem | hmem
  · exact absurd (List.mem_takeWhile_imp hmem) (by decide)
  · rw [← List.takeWhile_append_dropWhile (p := (· == ' ')) (l := u.dropWhile Text.isWord),
      List.mem_append] at hmem
    rcases hmem with hmem | hmem
    · exact absurd (List.mem_takeWhile_imp hmem) (by decide)
    · have hmem : '\n' ∈ ':' :: rest := hrest ▸ hmem
      rcases List.mem_cons.mp hmem with hcolon | hmem
      · exact absurd hcolon (by decide)
      · exact hfeed hmem

/-- Behind an annotation the comment decides. -/
theorem assignment_of_annotated {u : Text} (h : annotated u = true) (t : Text) :
    assignment (u ++ '#' :: t) = assignsLater ('#' :: t) := by
  obtain ⟨rest, hrest, hequals, hfeed⟩ := annotated_iff.mp h
  have hpass : ∀ c ∈ rest, (!(c == '=' || c == '\n')) = true := by
    intro c hc
    have hne : c ≠ '=' := fun heq => hequals (heq ▸ hc)
    have hne' : c ≠ '\n' := fun heq => hfeed (heq ▸ hc)
    simp [hne, hne']
  rw [skipSpaces] at hrest
  simp only [assignment, skipSpaces,
    Text.dropWhile_append_cons (p := Text.isWord) (d := '#') (by decide),
    Text.dropWhile_append_cons (p := (· == ' ')) (d := '#') (by decide), hrest, List.cons_append]
  rw [assignsLater, List.dropWhile_append_of_pos hpass]

/-- Behind anything else the comment is not seen. -/
theorem assignment_of_not_annotated {u : Text} (h : annotated u = false) (t t' : Text) :
    assignment (u ++ '#' :: t) = assignment (u ++ '#' :: t') := by
  simp only [assignment, skipSpaces,
    Text.dropWhile_append_cons (p := Text.isWord) (d := '#') (by decide),
    Text.dropWhile_append_cons (p := (· == ' ')) (d := '#') (by decide)]
  cases hu : (u.dropWhile Text.isWord).dropWhile (· == ' ') with
  | nil => exact assigns_localTo (Or.inr rfl) [] t t'
  | cons c rest =>
    by_cases hc : c = ':'
    · subst hc
      simp only [List.cons_append]
      -- the first equals sign or line feed stands before the comment
      have hstop : rest.dropWhile (fun d => !(d == '=' || d == '\n')) ≠ [] := by
        intro hnil
        rw [List.dropWhile_eq_nil_iff] at hnil
        rw [annotated, skipSpaces, hu] at h
        simp only [Bool.not_eq_false', Bool.or_eq_true, List.contains_eq_mem,
          decide_eq_true_eq] at h
        rcases h with hmem | hmem
        · simpa using hnil _ hmem
        · simpa using hnil _ hmem
      rw [List.dropWhile_append, List.dropWhile_append, if_neg (by simpa using hstop),
        if_neg (by simpa using hstop)]
      exact assigns_localTo (Or.inr rfl) _ t t'
    · simp only [List.cons_append]
      split
      · simp_all
      · split
        · simp_all
        · exact assigns_localTo (Or.inr rfl) (c :: rest) t t'

theorem assignsLater_append {post : Text} (hpost : post.headD '\n' = '\n') (t : Text) :
    assignsLater (t ++ post) = assignsLater t := by
  cases post with
  | nil => rw [List.append_nil]
  | cons c post =>
    obtain rfl : c = '\n' := hpost
    rw [assignsLater, assignsLater, Text.dropWhile_append_cons (by decide)]
    match t.dropWhile fun d => !(d == '=' || d == '\n') with
    | [] => rfl
    | [c] => by_cases hc : c = '=' <;> simp [assigns, hc]
    | c :: d :: u =>
      by_cases hc : c = '='
      · by_cases hd : d = '=' <;> simp [assigns, hc, hd]
      · simp [assigns, hc]

/-! ## What opens in front of a comment -/

/-- What opens in a class body before any class attribute is considered. -/
def beforeAttributes (cur : Cursor) : Option SpanKind :=
  (SpanKind.priority.takeWhile (· != .classAttribute)).find? fun k =>
    (standard .classDef).children.contains k && (standard k).opens cur

/-- In a class body the attributes come last. -/
theorem dispatch_classDef (cur : Cursor) :
    RuleTable.dispatch standard (standard .classDef) cur =
      (beforeAttributes cur).or
        (if (standard .classAttribute).opens cur then some .classAttribute else .none) := by
  have hsplit : SpanKind.priority = SpanKind.priority.takeWhile (· != .classAttribute) ++
      [.classAttribute, .returnStmt, .raiseStmt, .yieldStmt, .file] := rfl
  have hlast : ([.classAttribute, .returnStmt, .raiseStmt, .yieldStmt, .file].find? fun k =>
      (standard .classDef).children.contains k && (standard k).opens cur) =
        if (standard .classAttribute).opens cur then some .classAttribute else .none := by
    have hlegal : (standard .classDef).children.contains .classAttribute = true := rfl
    have hrest : ∀ k ∈ ([.returnStmt, .raiseStmt, .yieldStmt, .file] : List SpanKind),
        k ∉ (standard .classDef).children := by decide
    have hnone : ([.returnStmt, .raiseStmt, .yieldStmt, .file].find? fun k =>
        (standard .classDef).children.contains k && (standard k).opens cur) = .none :=
      List.find?_eq_none.mpr fun k hk => by simp [hrest k hk]
    rw [List.find?_cons, hlegal, Bool.true_and, hnone]
    cases (standard .classAttribute).opens cur <;> rfl
  rw [← hlast, beforeAttributes, ← List.find?_append, ← hsplit]
  rfl

/-- What opens in front of a comment does not depend on its text, unless a class attribute would
be the only thing to open there. -/
theorem dispatch_comment {k : SpanKind} {back : Text} {c : Char} {u t t' : Text}
    (hattribute : k = .classDef →
      (∀ j, RuleTable.dispatch standard (standard k) ⟨back, c :: (u ++ '#' :: t)⟩ = some j →
        j = .classAttribute) →
      (standard .classAttribute).opens ⟨back, c :: (u ++ '#' :: t')⟩ =
        (standard .classAttribute).opens ⟨back, c :: (u ++ '#' :: t)⟩) :
    RuleTable.dispatch standard (standard k) ⟨back, c :: (u ++ '#' :: t')⟩ =
      RuleTable.dispatch standard (standard k) ⟨back, c :: (u ++ '#' :: t)⟩ := by
  have hopens : ∀ j, j ≠ .classAttribute →
      (standard j).opens ⟨back, c :: (u ++ '#' :: t')⟩ =
        (standard j).opens ⟨back, c :: (u ++ '#' :: t)⟩ :=
    fun j hj => standard_opens_localTo (Or.inr rfl) (fun h => absurd h hj) back c u t' t
  by_cases hk : k = .classDef
  · subst hk
    have hfirst : beforeAttributes ⟨back, c :: (u ++ '#' :: t')⟩ =
        beforeAttributes ⟨back, c :: (u ++ '#' :: t)⟩ := by
      refine List.find?_congr fun j hj => ?_
      rw [hopens j (by simpa using List.mem_takeWhile_imp hj)]
    have hlast := hattribute rfl
    rw [dispatch_classDef] at hlast
    rw [dispatch_classDef, dispatch_classDef, hfirst]
    cases hfound : beforeAttributes ⟨back, c :: (u ++ '#' :: t)⟩ with
    | some j => rfl
    | none =>
      rw [hfound, Option.none_or] at hlast
      rw [hlast fun j hj => (Option.some.inj (Option.ite_none_right_eq_some.mp hj).2).symm]
  · have hnot : SpanKind.classAttribute ∉ (standard k).children := by
      revert hk
      cases k <;> decide
    unfold RuleTable.dispatch
    congr 1
    funext j
    by_cases hj : j = .classAttribute
    · simp [hj, hnot]
    · rw [hopens j hj]

end DocCoverage.Rule
