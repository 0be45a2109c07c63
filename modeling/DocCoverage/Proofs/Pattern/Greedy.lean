import DocCoverage.Proofs.Pattern.Language

/-!
# Preferred matches

The match that an expression prefers is followed piece by piece: a sequence prefers what its parts
prefer one after the other, as long as each of them succeeds on the way, and a greedy repetition
goes on as long as its body succeeds. Matches that are found only by giving something back are not
treated.
-/
namespace DocCoverage.Pattern

namespace State

/-- The place behind a text that stands at the front of the rest. -/
def advance (st : State) : Text → State
  | [] => st
  | c :: u => advance { st with pos := st.pos + 1, prev := some c, rest := st.rest.tail } u

theorem advance_append (st : State) (u v : Text) :
    st.advance (u ++ v) = (st.advance u).advance v := by
  induction u generalizing st with
  | nil => rfl
  | cons c u ih => exact ih _

@[simp] theorem advance_pos (st : State) (u : Text) : (st.advance u).pos = st.pos + u.length := by
  induction u generalizing st with
  | nil => rfl
  | cons c u ih =>
    simp only [advance, ih, List.length_cons]
    omega

@[simp] theorem advance_groups (st : State) (u : Text) : (st.advance u).groups = st.groups := by
  induction u generalizing st with
  | nil => rfl
  | cons c u ih => rw [advance, ih]

theorem advance_rest {st : State} {u v : Text} (h : st.rest = u ++ v) :
    (st.advance u).rest = v := by
  induction u generalizing st with
  | nil => exact h
  | cons c u ih =>
    rw [advance]
    apply ih
    rw [h]
    rfl

theorem next?_eq {st : State} {c : Char} {v : Text} (h : st.rest = c :: v) :
    st.next? = some (st.advance [c]) := by
  rw [next?, h]
  simp only [advance, h, List.tail_cons]

def withGroups (st : State) (g : List (Text × Text)) : State := { st with groups := g }

@[simp] theorem withGroups_rest (st : State) (g : List (Text × Text)) :
    (st.withGroups g).rest = st.rest := rfl

@[simp] theorem withGroups_pos (st : State) (g : List (Text × Text)) :
    (st.withGroups g).pos = st.pos := rfl

theorem withGroups_advance (st : State) (u : Text) (g : List (Text × Text)) :
    (st.withGroups g).advance u = (st.advance u).withGroups g := by
  induction u generalizing st with
  | nil => rfl
  | cons c u ih => exact ih { st with pos := st.pos + 1, prev := some c, rest := st.rest.tail }

theorem withGroups_self {st : State} {g : List (Text × Text)} (h : st.groups = g) :
    st.withGroups g = st := by
  subst h
  rfl

end State

theorem firsts_cons (s : State) (sts : List State) : ∃ l, firsts (s :: sts) = s :: l := by
  refine ⟨firstsFrom (Places.insert 0 s.pos) sts, ?_⟩
  rw [firsts, firstsFrom, if_neg (by simp)]

theorem throughAll_cons {step : State → List State} {s t : State} {l : List State}
    (h : step s = t :: l) (sts : List State) : ∃ l', throughAll step (s :: sts) = t :: l' := by
  rw [throughAll, List.flatMap_cons, h]
  exact firsts_cons t _

namespace Expr

variable {e a b body : Expr} {st s t : State}

-- the equations by which the lemmas of this section follow a match into the parts of an expression
attribute [local simp] ends

theorem matchAt_eq_some_iff : e.matchAt st = some s ↔ ∃ l, e.ends st = s :: l := by
  rw [matchAt]
  cases e.ends st with
  | nil => simp
  | cons x l => simp [eq_comm]

theorem matchAt_eq_none_iff : e.matchAt st = none ↔ e.ends st = [] := by
  rw [matchAt, List.head?_eq_none_iff]

theorem matchAt_eq_none (h : ∀ u v, st.rest = u ++ v → ¬ e.Spells u) : e.matchAt st = none := by
  rw [matchAt_eq_none_iff]
  apply List.eq_nil_iff_forall_not_mem.mpr
  intro s hs
  obtain ⟨u, hu, hspells⟩ := mem_ends hs
  exact h u s.rest hu.rest_eq hspells

theorem matchAt_chars {cs : CharSet} {c : Char} {v : Text} (h : st.rest = c :: v)
    (hc : cs.contains c = true) : (chars cs).matchAt st = some (st.advance [c]) := by
  rw [matchAt_eq_some_iff, ends, State.next?_eq h]
  refine ⟨[], if_pos ?_⟩
  exact hc

theorem matchAt_cat (ha : a.matchAt st = some s) (hb : b.matchAt s = some t) :
    (cat a b).matchAt st = some t := by
  obtain ⟨l, hl⟩ := matchAt_eq_some_iff.mp ha
  obtain ⟨l', hl'⟩ := matchAt_eq_some_iff.mp hb
  rw [matchAt_eq_some_iff, ends, hl]
  exact throughAll_cons hl' l

theorem matchAt_named {n : Text} (h : body.matchAt st = some s) :
    (group (some n) body).matchAt st =
      some (s.withGroups ((n, st.rest.take (s.pos - st.pos)) :: s.groups)) := by
  obtain ⟨l, hl⟩ := matchAt_eq_some_iff.mp h
  rw [matchAt_eq_some_iff, ends, hl]
  exact ⟨_, rfl⟩

/-- An optional part that is not there is passed over. -/
theorem matchAt_optional (h : body.matchAt st = none) :
    (rep body 0 (some 1) true).matchAt st = some st := by
  have hbody := matchAt_eq_none_iff.mp h
  rw [matchAt_eq_some_iff, ends]
  have hup : upTo body.ends true 1 st = [st] := by
    simp [upTo, explore, hbody, Frontier.emit, firsts, firstsFrom]
  exact throughAll_cons hup []

/-- Repeating the body from a place, each time by its preferred match, leads to a place where the
body fails. -/
inductive Follows (body : Expr) : State → State → Prop
  | fails {st : State} (h : body.matchAt st = none) : Follows body st st
  | goesOn {st t : State} {u v : Text} (hu : u ≠ []) (hrest : st.rest = u ++ v)
      (h : body.matchAt st = some (st.advance u)) (tail : Follows body (st.advance u) t) :
      Follows body st t

theorem Places.testBit_insert (seen : Places) (n i : Nat) :
    (Places.insert seen n).testBit i = (seen.testBit i || decide (n = i)) := by
  rw [Places.insert, Nat.testBit_or, Nat.one_shiftLeft, Nat.testBit_two_pow]

theorem foldl_grows {visit : Frontier → State → Frontier}
    (h : ∀ f s, ∃ l, (visit f s).found = l ++ f.found) (sts : List State) (f : Frontier) :
    ∃ l, (sts.foldl visit f).found = l ++ f.found := by
  induction sts generalizing f with
  | nil => exact ⟨[], rfl⟩
  | cons s sts ih =>
    obtain ⟨l, hl⟩ := h f s
    obtain ⟨l', hl'⟩ := ih (visit f s)
    exact ⟨l' ++ l, by rw [List.foldl_cons, hl', hl, List.append_assoc]⟩

theorem explore_grows (step : State → List State) (greedy : Bool) (key : Nat → State → Nat)
    (n : Nat) (f : Frontier) (st : State) :
    ∃ l, (explore step greedy key n f st).found = l ++ f.found := by
  induction n generalizing f st with
  | zero => exact ⟨[st], rfl⟩
  | succ n ih =>
    rw [explore]
    split
    · exact ⟨[], rfl⟩
    · dsimp only
      split
      · obtain ⟨l, hl⟩ := foldl_grows ih (step st)
          { f with seen := Places.insert f.seen (key (n + 1) st) }
        exact ⟨st :: l, by rw [Frontier.emit, hl]; rfl⟩
      · obtain ⟨l, hl⟩ := foldl_grows ih (step st)
          (Frontier.emit { f with seen := Places.insert f.seen (key (n + 1) st) } st)
        exact ⟨l ++ [st], by rw [hl, Frontier.emit]; simp⟩

/-- Exploring from an unseen place first finds where the preferred matches lead. -/
theorem Follows.explore_found (h : Follows body st t) {n : Nat} (hn : st.rest.length < n)
    {f : Frontier} (hseen : ∀ i, st.pos ≤ i → f.seen.testBit i = false) :
    ∃ l, (explore body.ends true (fun _ s => s.pos) n f st).found = l ++ t :: f.found := by
  induction h generalizing n f with
  | @fails st h =>
    obtain ⟨m, rfl⟩ := Nat.exists_eq_add_of_lt hn
    rw [explore, if_neg (by simp [hseen st.pos (Nat.le_refl _)])]
    exact ⟨[], by simp [matchAt_eq_none_iff.mp h, Frontier.emit]⟩
  | @goesOn st t u v hu hrest h tail ih =>
    obtain ⟨m, rfl⟩ := Nat.exists_eq_add_of_lt hn
    have hpos := List.length_pos_of_ne_nil hu
    have hlen : st.rest.length = u.length + v.length := by rw [hrest, List.length_append]
    obtain ⟨sts, hsts⟩ := matchAt_eq_some_iff.mp h
    have hseen' : ∀ i, (st.advance u).pos ≤ i →
        (Places.insert f.seen st.pos).testBit i = false := by
      intro i hi
      rw [State.advance_pos] at hi
      rw [Places.testBit_insert, hseen i (by omega), Bool.false_or, decide_eq_false_iff_not]
      omega
    rw [explore, if_neg (by simp [hseen st.pos (Nat.le_refl _)])]
    simp only [if_true, hsts, List.foldl_cons]
    obtain ⟨l, hl⟩ := ih (n := st.rest.length + m)
      (f := { f with seen := Places.insert f.seen st.pos })
      (by rw [State.advance_rest hrest]; omega) hseen'
    obtain ⟨l', hl'⟩ := foldl_grows (explore_grows body.ends true (fun _ s => s.pos) _) sts
      (explore body.ends true (fun _ s => s.pos) (st.rest.length + m)
        { f with seen := Places.insert f.seen st.pos } (st.advance u))
    exact ⟨st :: (l' ++ l), by rw [Frontier.emit, hl', hl]; simp⟩

/-- At least one copy, as many as there are. -/
theorem Follows.oneOrMore {u v : Text} (hu : u ≠ []) (hrest : st.rest = u ++ v)
    (h : body.matchAt st = some (st.advance u)) (tail : Follows body (st.advance u) t) :
    ∃ l, Pattern.oneOrMore body.ends true st = t :: l := by
  obtain ⟨sts, hsts⟩ := matchAt_eq_some_iff.mp h
  have hpos := List.length_pos_of_ne_nil hu
  have hlen : st.rest.length = u.length + v.length := by rw [hrest, List.length_append]
  have hne : ((st.advance u).pos == st.pos) = false := by
    rw [beq_eq_false_iff_ne, State.advance_pos]
    omega
  obtain ⟨l, hl⟩ := tail.explore_found (n := st.rest.length + 2) (f := ⟨[], 0⟩)
    (by rw [State.advance_rest hrest]; omega) (by simp)
  have hgrows : ∀ f s, ∃ l, (if s.pos == st.pos then Frontier.emit f s
      else explore body.ends true (fun _ s => s.pos) (st.rest.length + 2) f s).found =
        l ++ f.found := by
    intro f s
    split
    · exact ⟨[s], rfl⟩
    · exact explore_grows _ _ _ _ f s
  obtain ⟨l', hl'⟩ := foldl_grows hgrows sts
    (explore body.ends true (fun _ s => s.pos) (st.rest.length + 2) ⟨[], 0⟩ (st.advance u))
  simp only [Pattern.oneOrMore, hsts, List.foldl_cons, hne, Bool.false_eq_true, if_false]
  rw [hl', hl]
  simp only [List.reverse_append, List.reverse_cons, List.reverse_nil, List.nil_append,
    List.cons_append]
  exact firsts_cons t _

/-- A greedy repetition goes as far as its body succeeds. -/
theorem matchAt_star (h : Follows body st t) : (rep body 0 none true).matchAt st = some t := by
  rw [matchAt_eq_some_iff, ends, anyNumber, if_pos rfl]
  cases h with
  | fails h =>
    have hnil : Pattern.oneOrMore body.ends true st = [] := by
      simp only [Pattern.oneOrMore, matchAt_eq_none_iff.mp h]
      rfl
    rw [hnil]
    exact firsts_cons st []
  | goesOn hu hrest h tail =>
    obtain ⟨l, hl⟩ := Follows.oneOrMore hu hrest h tail
    rw [hl]
    exact firsts_cons t _

theorem matchAt_plus {u v : Text} (hu : u ≠ []) (hrest : st.rest = u ++ v)
    (h : body.matchAt st = some (st.advance u)) (tail : Follows body (st.advance u) t) :
    (rep body 1 none true).matchAt st = some t := by
  obtain ⟨l, hl⟩ := Follows.oneOrMore hu hrest h tail
  rw [matchAt_eq_some_iff, ends]
  exact throughAll_cons hl []

theorem matchAt_optional_some (h : body.matchAt st = some s) :
    (rep body 0 (some 1) true).matchAt st = some s := by
  obtain ⟨sts, hsts⟩ := matchAt_eq_some_iff.mp h
  have hup : ∃ l, upTo body.ends true 1 st = s :: l := by
    rw [upTo, explore, if_neg (by simp)]
    simp only [if_true, hsts, List.foldl_cons, explore]
    have hgrows : ∀ f s, ∃ l, (Frontier.emit f s).found = l ++ f.found := fun f s => ⟨[s], rfl⟩
    obtain ⟨l, hl⟩ := foldl_grows hgrows sts
      (Frontier.emit ⟨[], Places.insert 0 (1 * (st.pos + st.rest.length + 1) + st.pos)⟩ s)
    rw [Frontier.emit, hl]
    simp only [Frontier.emit, List.reverse_cons, List.reverse_append, List.reverse_nil,
      List.nil_append, List.cons_append]
    exact firsts_cons s _
  obtain ⟨l, hl⟩ := hup
  rw [matchAt_eq_some_iff, ends]
  exact throughAll_cons hl []

/-- Wherever the first text stands with the second behind it, the preferred match is the first
text. -/
def Eats (e : Expr) (u v : Text) : Prop :=
  ∀ st : State, st.rest = u ++ v → e.matchAt st = some (st.advance u)

/-- Where the text stands there is no match. -/
def Fails (e : Expr) (v : Text) : Prop := ∀ st : State, st.rest = v → e.matchAt st = none

theorem Fails.of_spells {v : Text} (h : ∀ u r, v = u ++ r → ¬ e.Spells u) : Fails e v := by
  intro st hst
  apply matchAt_eq_none
  rw [hst]
  exact h

theorem eats_chars {cs : CharSet} {c : Char} {v : Text} (hc : cs.contains c = true) :
    Eats (chars cs) [c] v := fun _ hst => matchAt_chars hst hc

theorem fails_chars {cs : CharSet} {v : Text}
    (hv : ∀ c, v.head? = some c → cs.contains c = false) : Fails (chars cs) v := by
  apply Fails.of_spells
  rintro u r rfl ⟨c, rfl, hc⟩
  rw [hv c rfl] at hc
  cases hc

/-- The body of a repetition eats pieces of the first text as long as it can. -/
inductive Repeats (body : Expr) : Text → Text → Prop
  | stop {v : Text} (h : Fails body v) : Repeats body [] v
  | more {u w v : Text} (hu : u ≠ []) (head : Eats body u (w ++ v)) (tail : Repeats body w v) :
      Repeats body (u ++ w) v

theorem Repeats.follows {u v : Text} (h : Repeats body u v) (hst : st.rest = u ++ v) :
    Follows body st (st.advance u) := by
  induction h generalizing st with
  | stop h => exact .fails (h st hst)
  | more hu head tail ih =>
    rw [List.append_assoc] at hst
    rw [State.advance_append]
    exact .goesOn hu hst (head st hst) (ih (State.advance_rest hst))

theorem Repeats.star {u v : Text} (h : Repeats body u v) : Eats (rep body 0 none true) u v :=
  fun _ hst => matchAt_star (h.follows hst)

theorem Repeats.plus {u v : Text} (h : Repeats body u v) (hne : u ≠ []) :
    Eats (rep body 1 none true) u v := by
  intro st hst
  cases h with
  | stop h => exact absurd rfl hne
  | more hu head tail =>
    rw [List.append_assoc] at hst
    rw [State.advance_append]
    exact matchAt_plus hu hst (head st hst) (tail.follows (State.advance_rest hst))

/-- A class of characters is repeated up to the first character outside it. -/
theorem repeats_chars {cs : CharSet} {u v : Text} (hu : ∀ c ∈ u, cs.contains c = true)
    (hv : ∀ c, v.head? = some c → cs.contains c = false) : Repeats (chars cs) u v := by
  induction u with
  | nil => exact .stop (fails_chars hv)
  | cons c u ih =>
    exact .more (List.cons_ne_nil c []) (eats_chars (hu c List.mem_cons_self))
      (ih fun d hd => hu d (List.mem_cons_of_mem _ hd))

theorem eats_optional {v : Text} (h : Fails body v) : Eats (rep body 0 (some 1) true) [] v :=
  fun st hst => matchAt_optional (h st hst)

theorem eats_optional_some {u v : Text} (h : Eats body u v) :
    Eats (rep body 0 (some 1) true) u v := fun st hst => matchAt_optional_some (h st hst)

/-- The parts of a sequence eat the first text one after the other. -/
inductive EatsAll : List Expr → Text → Text → Prop
  | nil (v : Text) : EatsAll [] [] v
  | cons {e : Expr} {es : List Expr} {x y v : Text} (head : Eats e x (y ++ v))
      (tail : EatsAll es y v) : EatsAll (e :: es) (x ++ y) v

namespace EatsAll

variable {es es' : List Expr} {x y v : Text}

theorem append (h : EatsAll es x (y ++ v)) (h' : EatsAll es' y v) :
    EatsAll (es ++ es') (x ++ y) v := by
  generalize hz : y ++ v = z at h
  induction h with
  | nil z => exact h'
  | cons head tail ih =>
    subst hz
    rw [List.append_assoc]
    refine .cons ?_ (ih rfl)
    rw [List.append_assoc]
    exact head

theorem single (h : Eats e x v) : EatsAll [e] x v := by
  rw [← List.append_nil x]
  exact .cons h (.nil v)

theorem sequence (h : EatsAll es x v) : Eats (sequence es) x v := by
  intro st hst
  cases es with
  | nil =>
    cases h
    rfl
  | cons e es =>
    rw [Expr.sequence]
    induction es generalizing e x with
    | nil =>
      cases h with
      | cons head tail =>
        cases tail
        rw [List.append_nil] at hst ⊢
        exact head st hst
    | cons d es ih =>
      cases h with
      | @cons _ _ w _ _ head tail =>
        cases tail with
        | @cons _ _ y z _ head' tail =>
          rw [← List.append_assoc] at hst ⊢
          refine ih hst (cat e d) (.cons ?_ tail)
          intro st hst
          have hst : st.rest = w ++ ((y ++ z) ++ v) := by
            rw [hst, List.append_assoc, List.append_assoc]
          have hrest := State.advance_rest hst
          rw [List.append_assoc] at hrest
          rw [State.advance_append]
          exact matchAt_cat (head st hst) (head' _ hrest)

theorem literal (w v : Text) : EatsAll (w.map fun c => chars (.single c)) w v := by
  induction w with
  | nil => exact .nil v
  | cons c w ih =>
    exact .cons (x := [c]) (eats_chars (CharSet.contains_single.mpr rfl)) ih

end EatsAll

/-- An entry with a name: the text of the name is bound. -/
theorem matchAt_entry {c : Expr} {n x y z t : Text} (ha : Eats a x (y ++ (z ++ t)))
    (hb : Eats b y (z ++ t)) (hc : Eats c z t) (hst : st.rest = x ++ (y ++ z) ++ t)
    (hgroups : st.groups = []) :
    (sequence [a, group (some n) b, c]).matchAt st =
      some ((st.advance (x ++ (y ++ z))).withGroups [(n, y)]) := by
  have hx : st.rest = x ++ (y ++ (z ++ t)) := by rw [hst]; simp
  have hy := State.advance_rest hx
  have hz := State.advance_rest hy
  have hname := matchAt_named (n := n) (hb _ hy)
  have hlen : ((st.advance x).advance y).pos - (st.advance x).pos = y.length := by
    rw [State.advance_pos]
    omega
  rw [hlen, hy, List.take_left, State.advance_groups, State.advance_groups, hgroups] at hname
  have hlast := hc (((st.advance x).advance y).withGroups [(n, y)]) hz
  rw [State.withGroups_advance] at hlast
  rw [State.advance_append, State.advance_append]
  exact matchAt_cat (matchAt_cat (ha st hx) hname) hlast

end Expr

end DocCoverage.Pattern
