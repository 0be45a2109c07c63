import DocCoverage.Proofs.Pattern.Greedy

/-!
# Finding entries in a text

A pattern is searched in a text that is laid out as gaps, in which it matches nowhere, and entries
that it matches. The search finds exactly the entries, in order.
-/
namespace DocCoverage

namespace Pattern.Expr

variable {e : Expr}

/-- No match starts inside the first text, when the second stands behind it. -/
def Passes (e : Expr) (g v : Text) : Prop := ∀ a b, g = a ++ b → b ≠ [] → Fails e (b ++ v)

namespace Passes

variable {g g' v : Text} {c : Char}

theorem append (h : e.Passes g (g' ++ v)) (h' : e.Passes g' v) : e.Passes (g ++ g') v := by
  intro a b hab hb
  rcases List.append_eq_append_iff.mp hab with ⟨m, rfl, hm⟩ | ⟨m, rfl, hm⟩
  · exact h' m b hm hb
  · subst hm
    cases m with
    | nil => exact h' [] g' rfl (by simpa using hb)
    | cons d m =>
      rw [List.append_assoc]
      exact h a (d :: m) rfl (List.cons_ne_nil d m)

theorem tail (h : e.Passes (c :: g) v) : e.Passes g v := by
  rintro a b rfl hb
  exact h (c :: a) b rfl hb

theorem here (h : e.Passes (c :: g) v) : Fails e (c :: (g ++ v)) :=
  h [] (c :: g) rfl (List.cons_ne_nil c g)

end Passes

theorem search_eq (e : Expr) (st : State) :
    e.search st = e.searchFrom (st.rest.length + 1) (st.withGroups []) := rfl

theorem search_found {st s : State} (h : e.matchAt (st.withGroups []) = some s) :
    e.search st = some ⟨st.pos, s⟩ := by
  rw [search_eq, searchFrom, h]
  rfl

theorem search_skip {st : State} {g v : Text} (hrest : st.rest = g ++ v) (hg : e.Passes g v) :
    e.search st = e.search (st.advance g) := by
  induction g generalizing st with
  | nil => rfl
  | cons c g ih =>
    have hnone : e.matchAt (st.withGroups []) = none := hg.here _ hrest
    have hrest' : st.rest = [c] ++ (g ++ v) := hrest
    have hnext : (st.withGroups []).next? =
        some ((st.advance [c]).withGroups []) := State.next?_eq hrest
    have hlen : st.rest.length = (st.advance [c]).rest.length + 1 := by
      rw [State.advance_rest hrest', hrest]
      rfl
    calc e.search st
        = e.searchFrom st.rest.length ((st.advance [c]).withGroups []) := by
          rw [search_eq, searchFrom, hnone]
          simp only [hnext]
      _ = e.search (st.advance [c]) := by rw [hlen, search_eq]
      _ = e.search (st.advance (c :: g)) := ih (State.advance_rest hrest') hg.tail

theorem search_eq_none {st : State} (hg : e.Passes st.rest []) (hend : Fails e []) :
    e.search st = none := by
  rw [search_skip (List.append_nil _).symm hg]
  have hrest := State.advance_rest (List.append_nil st.rest).symm
  have hnone : e.matchAt ((st.advance st.rest).withGroups []) = none := hend _ hrest
  rw [search_eq, searchFrom, hnone, State.next?]
  simp only [State.withGroups_rest, hrest]

/-- A text laid out for a pattern: gaps and entries, with the groups that each entry binds. -/
inductive Layout (e : Expr) : Text → List (List (Text × Text)) → Prop
  | done {g : Text} (gap : e.Passes g []) (fails : Fails e []) : Layout e g []
  | entry {g l t : Text} {x : List (Text × Text)} {xs : List (List (Text × Text))}
      (gap : e.Passes g (l ++ t)) (ne : l ≠ [])
      (found : ∀ st : State, st.rest = l ++ t → st.groups = [] →
        e.matchAt st = some ((st.advance l).withGroups x))
      (tail : Layout e t xs) : Layout e (g ++ (l ++ t)) (x :: xs)

/-- More of a gap in front of a layout. -/
theorem Layout.behind {g t : Text} {xs : List (List (Text × Text))} (h : Layout e t xs)
    (gap : e.Passes g t) : Layout e (g ++ t) xs := by
  cases h with
  | done gap' fails =>
    refine .done (Passes.append ?_ gap') fails
    rwa [List.append_nil]
  | entry gap' ne found tail =>
    rw [← List.append_assoc]
    exact .entry (gap.append gap') ne found tail

theorem search_entry {st : State} {g l t : Text} {x : List (Text × Text)}
    (hrest : st.rest = g ++ (l ++ t)) (gap : e.Passes g (l ++ t))
    (found : ∀ st : State, st.rest = l ++ t → st.groups = [] →
      e.matchAt st = some ((st.advance l).withGroups x)) :
    ∃ s, e.search st = some ⟨st.pos + g.length, s⟩ ∧ s.pos = st.pos + g.length + l.length ∧
      s.rest = t ∧ s.groups = x := by
  rw [search_skip hrest gap]
  have hg := State.advance_rest hrest
  have hfound := found ((st.advance g).withGroups []) hg rfl
  refine ⟨_, by rw [search_found hfound, State.advance_pos], ?_, ?_, rfl⟩
  · simp
  · exact State.advance_rest hg

/-- The matches behind a match are the entries that are left. -/
theorem matchesFrom_layout {st : State} {t : Text} {xs : List (List (Text × Text))}
    (h : Layout e t xs) {n : Nat} (hrest : st.rest = t) (hn : t.length < n) :
    (e.matchesFrom n st).map (·.stop.groups) = xs := by
  induction h generalizing st n with
  | done gap fails =>
    obtain ⟨m, rfl⟩ := Nat.exists_eq_add_of_lt hn
    rw [matchesFrom, searchNext, search_eq_none (by rw [hrest]; exact gap) fails]
    rfl
  | @entry g l t x xs gap ne found tail ih =>
    obtain ⟨m, rfl⟩ := Nat.exists_eq_add_of_lt hn
    obtain ⟨s, hs, hpos, hsrest, hgroups⟩ := search_entry hrest gap found
    have hl := List.length_pos_of_ne_nil ne
    have hne : (s.pos == st.pos) = false := by
      rw [beq_eq_false_iff_ne, hpos]
      omega
    simp only [matchesFrom, searchNext, hs, hne, Bool.and_false, Bool.false_eq_true, if_false,
      List.map_cons, hgroups, List.cons.injEq, true_and]
    apply ih hsrest
    simp only [List.length_append]
    omega

/-- A search through a laid out text finds its entries. -/
theorem findAll_layout {t : Text} {xs : List (List (Text × Text))} (h : Layout e t xs) :
    (e.findAll t).map (·.stop.groups) = xs := by
  cases h with
  | done gap fails =>
    rw [findAll, search_eq_none gap fails]
    rfl
  | @entry g l t x xs gap ne found tail =>
    have hrest : (State.start (g ++ (l ++ t))).rest = g ++ (l ++ t) := rfl
    obtain ⟨s, hs, -, hsrest, hgroups⟩ := search_entry hrest gap found
    simp only [findAll, hs, List.map_cons, hgroups, List.cons.injEq, true_and]
    apply matchesFrom_layout tail hsrest
    simp only [List.length_append]
    omega

end Pattern.Expr

end DocCoverage
