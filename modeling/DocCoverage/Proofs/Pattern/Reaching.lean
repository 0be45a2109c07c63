import DocCoverage.Proofs.Pattern.Greedy

/-!
# Every text of the language is reached

An expression without conditions on places has a match behind every text that it spells, whatever
it prefers. The one place where a match could get lost is a repetition, which enters no place
twice: a place that was entered is left only when everything one copy further was entered as well,
so the places that were entered are closed under copies of the body.
-/
namespace DocCoverage.Pattern

namespace Expr

/-- No conditions on places, and no bounds on repetitions but for optional parts. -/
def isPlain : Expr → Bool
  | empty => true
  | chars _ => true
  | look _ => false
  | cat a b => a.isPlain && b.isPlain
  | alt a b => a.isPlain && b.isPlain
  | rep body least most _ =>
    body.isPlain && (most == none || (least == 0 && most == some 1))
  | group _ body => body.isPlain

/-- A match can end behind every text of the language. -/
def Reaches (e : Expr) : Prop :=
  ∀ (st : State) (u v : Text), st.rest = u ++ v → e.Spells u →
    ∃ s ∈ e.ends st, s.pos = st.pos + u.length

end Expr

variable {body : Expr} {st s t : State} {u v : Text}

theorem State.Behind.eq_of_pos {x : Text} (h : st.Behind x s) (hrest : st.rest = u ++ v)
    (hpos : s.pos = st.pos + u.length) : x = u ∧ s.rest = v := by
  have hlen : x.length = u.length := by
    have := h.pos_eq
    omega
  exact List.append_inj (h.rest_eq.symm.trans hrest) hlen

theorem Expr.rest_of_mem_ends {e : Expr} (hs : s ∈ e.ends st) (hrest : st.rest = u ++ v)
    (hpos : s.pos = st.pos + u.length) : s.rest = v := by
  obtain ⟨x, hx, -⟩ := mem_ends hs
  exact (hx.eq_of_pos hrest hpos).2

theorem exists_firstsFrom {seen : Places} {sts : List State} (hs : s ∈ sts)
    (hseen : seen.testBit s.pos = false) : ∃ t ∈ firstsFrom seen sts, t.pos = s.pos := by
  induction sts generalizing seen with
  | nil => cases hs
  | cons x sts ih =>
    rw [firstsFrom]
    by_cases hx : x.pos = s.pos
    · rw [hx, if_neg (by simp [hseen])]
      exact ⟨x, List.mem_cons_self, hx⟩
    · have hmem : s ∈ sts := (List.mem_cons.mp hs).resolve_left fun h => hx (by rw [h])
      split
      · exact ih hmem hseen
      · have hseen' : (Places.insert seen x.pos).testBit s.pos = false := by
          rw [Expr.Places.testBit_insert, hseen, Bool.false_or, decide_eq_false_iff_not]
          exact hx
        obtain ⟨y, hy, hpos⟩ := ih hmem hseen'
        exact ⟨y, List.mem_cons_of_mem _ hy, hpos⟩

theorem exists_firsts {sts : List State} (hs : s ∈ sts) : ∃ t ∈ firsts sts, t.pos = s.pos :=
  exists_firstsFrom hs (Nat.zero_testBit _)

theorem exists_throughAll {step : State → List State} {sts : List State} (ht : t ∈ sts)
    (hs : s ∈ step t) : ∃ x ∈ throughAll step sts, x.pos = s.pos :=
  exists_firsts (List.mem_flatMap.mpr ⟨t, ht, hs⟩)

/-! ## Exploring -/

/-- The place `i` was found, and everything one copy of the body behind it was entered. Places are
counted in the text behind `st`. -/
def Settled (body : Expr) (st : State) (f : Frontier) (i : Nat) : Prop :=
  ∃ s ∈ f.found, s.pos = i ∧ (∃ u, st.Behind u s) ∧
    ∀ t ∈ body.ends s, f.seen.testBit t.pos = true

/-- Between two moments of an exploration nothing is forgotten, and every place that was entered
has been settled. -/
structure Explored (body : Expr) (st : State) (f g : Frontier) : Prop where
  found : f.found ⊆ g.found
  seen : ∀ i, f.seen.testBit i = true → g.seen.testBit i = true
  settled : ∀ i, g.seen.testBit i = true → f.seen.testBit i = true ∨ Settled body st g i

namespace Explored

variable {f g h : Frontier}

theorem refl (f : Frontier) : Explored body st f f :=
  ⟨List.Subset.refl _, fun _ hi => hi, fun _ hi => Or.inl hi⟩

theorem settled_mono (hg : Explored body st f g) {i : Nat} (hi : Settled body st f i) :
    Settled body st g i := by
  obtain ⟨s, hs, hpos, hbehind, hnext⟩ := hi
  exact ⟨s, hg.found hs, hpos, hbehind, fun t ht => hg.seen _ (hnext t ht)⟩

theorem trans (hg : Explored body st f g) (hh : Explored body st g h) : Explored body st f h where
  found := List.Subset.trans hg.found hh.found
  seen i hi := hh.seen i (hg.seen i hi)
  settled i hi := by
    rcases hh.settled i hi with hi | hi
    · exact (hg.settled i hi).imp_right hh.settled_mono
    · exact Or.inr hi

theorem emit (f : Frontier) (s : State) : Explored body st f (f.emit s) :=
  ⟨List.subset_cons_self _ _, fun _ hi => hi, fun _ hi => Or.inl hi⟩

/-- Visits one after the other: what a visit needs and what it leaves behind both last. -/
theorem foldl {visit : Frontier → State → Frontier} {sts : List State} (needs : Frontier → Prop)
    (leaves : State → Frontier → Prop)
    (hneeds : ∀ f g, Explored body st f g → needs f → needs g)
    (hleaves : ∀ s f g, Explored body st f g → leaves s f → leaves s g)
    (hvisit : ∀ s ∈ sts, ∀ f, needs f → Explored body st f (visit f s) ∧ leaves s (visit f s))
    (hf : needs f) :
    Explored body st f (sts.foldl visit f) ∧ ∀ s ∈ sts, leaves s (sts.foldl visit f) := by
  induction sts generalizing f with
  | nil => exact ⟨refl f, fun s hs => absurd hs List.not_mem_nil⟩
  | cons x sts ih =>
    obtain ⟨hx, hleft⟩ := hvisit x List.mem_cons_self f hf
    obtain ⟨hrest, hothers⟩ := ih (fun s hs => hvisit s (List.mem_cons_of_mem x hs))
      (hneeds f _ hx hf)
    refine ⟨hx.trans hrest, fun s hs => ?_⟩
    rcases List.mem_cons.mp hs with rfl | hs
    · exact hleaves s _ _ hrest hleft
    · exact hothers s hs

/-- A place is settled once it was found and everything one copy further was entered. -/
theorem close {s : State} {g' : Frontier} (hs : ∃ u, st.Behind u s)
    (hseen : g.seen = Places.insert f.seen s.pos) (hfound : f.found ⊆ g.found)
    (hh : Explored body st g h) (hnext : ∀ t ∈ body.ends s, h.seen.testBit t.pos = true)
    (hlast : Explored body st h g') (hmem : s ∈ g'.found) (hsame : g'.seen = h.seen) :
    Explored body st f g' ∧ g'.seen.testBit s.pos = true := by
  have hinsert : ∀ i, g.seen.testBit i = (f.seen.testBit i || decide (s.pos = i)) := by
    intro i
    rw [hseen, Expr.Places.testBit_insert]
  have hg' := hh.trans hlast
  refine ⟨⟨List.Subset.trans hfound hg'.found, fun i hi => hg'.seen i ?_, fun i hi => ?_⟩,
    hg'.seen _ ?_⟩
  · rw [hinsert, hi, Bool.true_or]
  · rcases hg'.settled i hi with hi | hi
    · rw [hinsert, Bool.or_eq_true, decide_eq_true_eq] at hi
      rcases hi with hi | rfl
      · exact Or.inl hi
      · exact Or.inr ⟨s, hmem, rfl, hs, fun t ht => by rw [hsame]; exact hnext t ht⟩
    · exact Or.inr hi
  · rw [hinsert, decide_eq_true rfl, Bool.or_true]

theorem explore_again {step : State → List State} {greedy : Bool} {n : Nat}
    (hs : f.seen.testBit s.pos = true) :
    Explored body st f (explore step greedy (fun _ s => s.pos) n f s) ∧
      (explore step greedy (fun _ s => s.pos) n f s).seen.testBit s.pos = true := by
  cases n with
  | zero => exact ⟨emit f s, hs⟩
  | succ n =>
    rw [explore, if_pos hs]
    exact ⟨refl f, hs⟩

/-- Exploring from a place settles everything that it enters. -/
theorem explore (greedy : Bool) {n : Nat} (hs : ∃ u, st.Behind u s) (hn : s.rest.length < n) :
    Explored body st f (explore body.ends greedy (fun _ s => s.pos) n f s) ∧
      (Pattern.explore body.ends greedy (fun _ s => s.pos) n f s).seen.testBit s.pos = true := by
  induction n generalizing f s with
  | zero => omega
  | succ n ih =>
    by_cases hseen : f.seen.testBit s.pos = true
    · exact explore_again hseen
    · have hfold : ∀ g : Frontier, g.seen = Places.insert f.seen s.pos →
          Explored body st g ((body.ends s).foldl
            (Pattern.explore body.ends greedy (fun _ s => s.pos) n) g) ∧
          ∀ t ∈ body.ends s, ((body.ends s).foldl
            (Pattern.explore body.ends greedy (fun _ s => s.pos) n) g).seen.testBit t.pos =
              true := by
        intro g hg
        refine foldl (fun g => g.seen.testBit s.pos = true) (fun t g => g.seen.testBit t.pos = true)
          (fun _ _ hfg => hfg.seen _) (fun _ _ _ hfg => hfg.seen _) ?_ ?_
        · intro t ht g hg
          obtain ⟨u, hu⟩ := hs
          obtain ⟨x, hx, -⟩ := Expr.mem_ends ht
          by_cases hnil : x = []
          · -- an empty copy stays where it is
            have hpos : t.pos = s.pos := by rw [hx.pos_eq, hnil]; rfl
            exact explore_again (by rw [hpos]; exact hg)
          · have hlen := congrArg List.length hx.rest_eq
            have hpos := List.length_pos_of_ne_nil hnil
            rw [List.length_append] at hlen
            exact ih ⟨u ++ x, hu.trans hx⟩ (by omega)
        · rw [hg, Expr.Places.testBit_insert, decide_eq_true rfl, Bool.or_true]
      rw [Pattern.explore, if_neg hseen]
      cases greedy with
      | true =>
        obtain ⟨hh, hnext⟩ := hfold { f with seen := Places.insert f.seen s.pos } rfl
        exact close (g := { f with seen := Places.insert f.seen s.pos }) hs rfl
          (List.Subset.refl _) hh hnext (emit _ s) List.mem_cons_self rfl
      | false =>
        obtain ⟨hh, hnext⟩ :=
          hfold (Frontier.emit { f with seen := Places.insert f.seen s.pos } s) rfl
        exact close hs rfl (List.subset_cons_self _ _) hh hnext (refl _)
          (hh.found List.mem_cons_self) rfl

end Explored

/-! ## Repetitions -/

/-- Where every place that was entered is settled, copies of the body lead to such places only. -/
theorem seen_copies (hbody : body.Reaches) {f : Frontier}
    (hclosed : ∀ i, f.seen.testBit i = true → Settled body st f i) {us : List Text} {x : Text}
    (hus : ∀ u ∈ us, body.Spells u) (hrest : st.rest = x ++ (us.flatten ++ v))
    (hseen : f.seen.testBit (st.pos + x.length) = true) :
    f.seen.testBit (st.pos + (x ++ us.flatten).length) = true := by
  induction us generalizing x with
  | nil => rwa [List.flatten_nil, List.append_nil]
  | cons u us ih =>
    obtain ⟨s, -, hpos, ⟨y, hy⟩, hnext⟩ := hclosed _ hseen
    have hs : s.rest = u ++ (us.flatten ++ v) := by
      rw [(hy.eq_of_pos hrest hpos).2, List.flatten_cons, List.append_assoc]
    obtain ⟨t, ht, htpos⟩ := hbody s u _ hs (hus u List.mem_cons_self)
    have htseen := hnext t ht
    rw [List.flatten_cons, ← List.append_assoc]
    apply ih fun d hd => hus d (List.mem_cons_of_mem u hd)
    · rw [hrest, List.flatten_cons]
      simp only [List.append_assoc]
    · rwa [htpos, hpos, Nat.add_assoc, ← List.length_append] at htseen

/-- What is found and entered by at least one copy of the body. -/
def copiesFrom (body : Expr) (greedy : Bool) (st : State) : Frontier :=
  (body.ends st).foldl (fun f s => if s.pos == st.pos then f.emit s
    else explore body.ends greedy (fun _ s => s.pos) (st.rest.length + 2) f s) ⟨[], 0⟩

theorem copiesFrom_explored (body : Expr) (greedy : Bool) (st : State) :
    Explored body st ⟨[], 0⟩ (copiesFrom body greedy st) ∧
      ∀ s ∈ body.ends st, s.pos = st.pos ∧ s ∈ (copiesFrom body greedy st).found ∨
        (copiesFrom body greedy st).seen.testBit s.pos = true := by
  refine Explored.foldl (fun _ => True)
    (fun s g => s.pos = st.pos ∧ s ∈ g.found ∨ g.seen.testBit s.pos = true)
    (fun _ _ _ _ => trivial)
    (fun _ _ _ hg => Or.imp (fun h => ⟨h.1, hg.found h.2⟩) (hg.seen _)) ?_ trivial
  intro s hs f _
  by_cases hpos : s.pos = st.pos
  · rw [if_pos (beq_iff_eq.mpr hpos)]
    exact ⟨Explored.emit f s, Or.inl ⟨hpos, List.mem_cons_self⟩⟩
  · rw [if_neg (by rwa [beq_iff_eq])]
    obtain ⟨x, hx, -⟩ := Expr.mem_ends hs
    have hlen := congrArg List.length hx.rest_eq
    rw [List.length_append] at hlen
    obtain ⟨hexplored, hseen⟩ :=
      Explored.explore (f := f) greedy ⟨x, hx⟩ (n := st.rest.length + 2) (by omega)
    exact ⟨hexplored, Or.inr hseen⟩

/-- At least one copy of the body reaches every place behind copies of it. -/
theorem exists_oneOrMore (hbody : body.Reaches) (greedy : Bool) {us : List Text} (hne : us ≠ [])
    (hus : ∀ u ∈ us, body.Spells u) (hrest : st.rest = us.flatten ++ v) :
    ∃ s ∈ oneOrMore body.ends greedy st, s.pos = st.pos + us.flatten.length := by
  obtain ⟨hall, hfirst⟩ := copiesFrom_explored body greedy st
  have hclosed : ∀ i, (copiesFrom body greedy st).seen.testBit i = true →
      Settled body st (copiesFrom body greedy st) i :=
    fun i hi => (hall.settled i hi).resolve_left (by simp)
  suffices hfound : ∃ s ∈ (copiesFrom body greedy st).found,
      s.pos = st.pos + us.flatten.length by
    obtain ⟨s, hs, hpos⟩ := hfound
    obtain ⟨t, ht, heq⟩ := exists_firsts (List.mem_reverse.mpr hs)
    exact ⟨t, ht, heq.trans hpos⟩
  have hsettled : ∀ {i}, (copiesFrom body greedy st).seen.testBit i = true →
      ∃ s ∈ (copiesFrom body greedy st).found, s.pos = i := by
    intro i hi
    obtain ⟨s, hs, hpos, -⟩ := hclosed i hi
    exact ⟨s, hs, hpos⟩
  -- the first copy that is not empty is entered, and so is everything behind it
  induction us with
  | nil => exact absurd rfl hne
  | cons u us ih =>
    have htail : ∀ d ∈ us, body.Spells d := fun d hd => hus d (List.mem_cons_of_mem u hd)
    rw [List.flatten_cons, List.append_assoc] at hrest
    obtain ⟨s, hs, hpos⟩ := hbody st u _ hrest (hus u List.mem_cons_self)
    rcases hfirst s hs with ⟨hstays, hmem⟩ | hseen
    · have hu : u = [] := List.length_eq_zero_iff.mp (by omega)
      subst hu
      cases us with
      | nil => exact ⟨s, hmem, hpos⟩
      | cons d us => exact ih (List.cons_ne_nil d us) htail hrest
    · rw [hpos] at hseen
      obtain ⟨t, ht, htpos⟩ := hsettled (seen_copies hbody hclosed htail hrest hseen)
      exact ⟨t, ht, htpos⟩

theorem exists_exactly (hbody : body.Reaches) {us : List Text} (hus : ∀ u ∈ us, body.Spells u)
    {sts : List State} (hsts : ∀ x ∈ sts, ∃ y, st.Behind y x) {a : Text}
    (hrest : st.rest = a ++ (us.flatten ++ v)) (hs : s ∈ sts) (hpos : s.pos = st.pos + a.length) :
    ∃ t ∈ exactly body.ends us.length sts, t.pos = st.pos + (a ++ us.flatten).length := by
  induction us generalizing sts s a with
  | nil => exact ⟨s, hs, by rw [List.flatten_nil, List.append_nil, hpos]⟩
  | cons u us ih =>
    obtain ⟨y, hy⟩ := hsts s hs
    have hsrest : s.rest = u ++ (us.flatten ++ v) := by
      rw [(hy.eq_of_pos hrest hpos).2, List.flatten_cons, List.append_assoc]
    obtain ⟨t, ht, htpos⟩ := hbody s u _ hsrest (hus u List.mem_cons_self)
    obtain ⟨x, hx, hxpos⟩ := exists_throughAll hs ht
    have hthrough : ∀ z ∈ throughAll body.ends sts, ∃ y, st.Behind y z := by
      intro z hz
      obtain ⟨w, hw, hz⟩ := mem_throughAll hz
      obtain ⟨y, hy⟩ := hsts w hw
      obtain ⟨y', hy', -⟩ := Expr.mem_ends hz
      exact ⟨y ++ y', hy.trans hy'⟩
    rw [List.flatten_cons, ← List.append_assoc]
    refine ih (fun d hd => hus d (List.mem_cons_of_mem u hd)) hthrough ?_ hx ?_
    · rw [hrest, List.flatten_cons]
      simp only [List.append_assoc]
    · rw [hxpos, htpos, hpos, List.length_append, Nat.add_assoc]

/-- An optional part can be passed over, and it can be there once. -/
theorem mem_upTo_one (step : State → List State) (greedy : Bool) {x : State}
    (hx : x = st ∨ x ∈ step st) : ∃ t ∈ upTo step greedy 1 st, t.pos = x.pos := by
  apply exists_firsts
  rw [List.mem_reverse]
  have hfold : ∀ (sts : List State) (f : Frontier),
      (sts.foldl (explore step greedy (fun level s => level * (st.pos + st.rest.length + 1) + s.pos)
        0) f).found = sts.reverse ++ f.found := by
    intro sts
    induction sts with
    | nil => exact fun f => rfl
    | cons s sts ih =>
      intro f
      rw [List.foldl_cons, ih, List.reverse_cons, List.append_assoc]
      rfl
  rw [explore, if_neg (by simp)]
  cases greedy with
  | true => simpa [Frontier.emit, hfold] using hx
  | false => simpa [Frontier.emit, hfold, or_comm] using hx

namespace Expr

theorem Reaches.star {greedy : Bool} (hbody : body.Reaches) :
    (rep body 0 none greedy).Reaches := by
  intro st u v hrest hu
  obtain ⟨us, rfl, hus, -, -⟩ := hu
  suffices hfound : ∃ s ∈ oneOrMore body.ends greedy st ++ [st],
      s.pos = st.pos + us.flatten.length by
    obtain ⟨s, hs, hpos⟩ := hfound
    rw [ends, anyNumber]
    split
    · obtain ⟨t, ht, heq⟩ := exists_firsts hs
      exact ⟨t, ht, heq.trans hpos⟩
    · have hs' : s ∈ st :: oneOrMore body.ends greedy st := by
        rw [List.mem_append, List.mem_singleton] at hs
        exact List.mem_cons.mpr hs.symm
      obtain ⟨t, ht, heq⟩ := exists_firsts hs'
      exact ⟨t, ht, heq.trans hpos⟩
  cases us with
  | nil => exact ⟨st, by simp, rfl⟩
  | cons u us =>
    obtain ⟨s, hs, hpos⟩ := exists_oneOrMore hbody greedy (List.cons_ne_nil u us) hus hrest
    exact ⟨s, List.mem_append_left _ hs, hpos⟩

theorem Reaches.plus {least : Nat} {greedy : Bool} (hbody : body.Reaches) :
    (rep body (least + 1) none greedy).Reaches := by
  intro st u v hrest hu
  obtain ⟨us, rfl, hus, hleast, -⟩ := hu
  have hlen : (us.take least).length = least := by
    rw [List.length_take]
    omega
  have hdrop : us.drop least ≠ [] := by
    intro hnil
    have := congrArg List.length hnil
    rw [List.length_drop, List.length_nil] at this
    omega
  have hsplit : us.flatten = (us.take least).flatten ++ (us.drop least).flatten := by
    rw [← List.flatten_append, List.take_append_drop]
  rw [hsplit, List.append_assoc] at hrest
  obtain ⟨s, hs, hpos⟩ := exists_exactly (a := []) hbody
    (fun d hd => hus d (List.mem_of_mem_take hd))
    (fun x hx => ⟨[], by rw [List.mem_singleton.mp hx]; exact .refl st⟩)
    hrest (List.mem_singleton_self st) rfl
  rw [hlen] at hs
  rw [List.nil_append] at hpos
  have hsrest : s.rest = (us.drop least).flatten ++ v := by
    obtain ⟨z, hz, us', -, -, hbehind⟩ := mem_exactly (fun _ _ h => mem_ends h) hs
    rw [List.mem_singleton.mp hz] at hbehind
    exact (hbehind.eq_of_pos hrest hpos).2
  obtain ⟨t, ht, htpos⟩ := exists_oneOrMore hbody greedy hdrop
    (fun d hd => hus d (List.mem_of_mem_drop hd)) hsrest
  obtain ⟨x, hx, hxpos⟩ := exists_throughAll hs ht
  refine ⟨x, hx, ?_⟩
  rw [hxpos, htpos, hpos, hsplit, List.length_append, Nat.add_assoc]

theorem Reaches.optional {greedy : Bool} (hbody : body.Reaches) :
    (rep body 0 (some 1) greedy).Reaches := by
  intro st u v hrest hu
  obtain ⟨us, rfl, hus, -, hmost⟩ := hu
  have hlen : us.length ≤ 1 := hmost 1 rfl
  have hfound : ∃ x, (x = st ∨ x ∈ body.ends st) ∧ x.pos = st.pos + us.flatten.length := by
    cases us with
    | nil => exact ⟨st, Or.inl rfl, rfl⟩
    | cons u us =>
      obtain rfl : us = [] := List.length_eq_zero_iff.mp (by simpa using hlen)
      rw [List.flatten_cons, List.flatten_nil, List.append_nil] at hrest ⊢
      obtain ⟨s, hs, hpos⟩ := hbody st u v hrest (hus u List.mem_cons_self)
      exact ⟨s, Or.inr hs, hpos⟩
  obtain ⟨x, hx, hpos⟩ := hfound
  obtain ⟨t, ht, htpos⟩ := mem_upTo_one body.ends greedy hx
  obtain ⟨y, hy, hypos⟩ := exists_throughAll (List.mem_singleton_self st) ht
  rw [ends]
  exact ⟨y, hy, by rw [hypos, htpos, hpos]⟩

/-- Behind every text that a plain expression spells a match can end. -/
theorem reaches_of_isPlain {e : Expr} (h : e.isPlain = true) : e.Reaches := by
  induction e with
  | empty =>
    intro st u v hrest hu
    exact ⟨st, List.mem_singleton_self st, by rw [show u = [] from hu]; rfl⟩
  | chars cs =>
    intro st u v hrest hu
    obtain ⟨c, rfl, hc⟩ := hu
    obtain ⟨l, hl⟩ := matchAt_eq_some_iff.mp (matchAt_chars hrest hc)
    exact ⟨_, by rw [hl]; exact List.mem_cons_self, State.advance_pos st [c]⟩
  | look l => cases h
  | cat a b iha ihb =>
    rw [isPlain, Bool.and_eq_true] at h
    intro st u v hrest hu
    obtain ⟨x, y, rfl, hx, hy⟩ := hu
    rw [List.append_assoc] at hrest
    obtain ⟨s, hs, hpos⟩ := iha h.1 st x _ hrest hx
    obtain ⟨t, ht, htpos⟩ := ihb h.2 s y v (rest_of_mem_ends hs hrest hpos) hy
    obtain ⟨z, hz, hzpos⟩ := exists_throughAll hs ht
    exact ⟨z, hz, by rw [hzpos, htpos, hpos, List.length_append, Nat.add_assoc]⟩
  | alt a b iha ihb =>
    rw [isPlain, Bool.and_eq_true] at h
    intro st u v hrest hu
    have hfound : ∃ s ∈ a.ends st ++ b.ends st, s.pos = st.pos + u.length := by
      rcases hu with hu | hu
      · obtain ⟨s, hs, hpos⟩ := iha h.1 st u v hrest hu
        exact ⟨s, List.mem_append_left _ hs, hpos⟩
      · obtain ⟨s, hs, hpos⟩ := ihb h.2 st u v hrest hu
        exact ⟨s, List.mem_append_right _ hs, hpos⟩
    obtain ⟨s, hs, hpos⟩ := hfound
    obtain ⟨t, ht, htpos⟩ := exists_firsts hs
    exact ⟨t, ht, htpos.trans hpos⟩
  | rep body least most greedy ih =>
    simp only [isPlain, Bool.and_eq_true, Bool.or_eq_true, beq_iff_eq] at h
    obtain ⟨hbody, rfl | ⟨rfl, rfl⟩⟩ := h
    · cases least with
      | zero => exact (ih hbody).star
      | succ least => exact (ih hbody).plus
    · exact (ih hbody).optional
  | group name body ih =>
    rw [isPlain] at h
    cases name with
    | none => exact ih h
    | some name =>
      intro st u v hrest hu
      obtain ⟨s, hs, hpos⟩ := ih h st u v hrest hu
      exact ⟨_, List.mem_map.mpr ⟨s, hs, rfl⟩, hpos⟩

/-- A plain expression can match up to the end of a text exactly if it spells the text. -/
theorem exists_ends_iff {e : Expr} (h : e.isPlain = true) (st : State) :
    (∃ s ∈ e.ends st, s.rest = []) ↔ e.Spells st.rest := by
  constructor
  · intro hs
    obtain ⟨s, hs, hrest⟩ := hs
    obtain ⟨u, hu, hspells⟩ := mem_ends hs
    rw [hu.rest_eq, hrest, List.append_nil]
    exact hspells
  · intro hspells
    have hrest : st.rest = st.rest ++ [] := (List.append_nil _).symm
    obtain ⟨s, hs, hpos⟩ := reaches_of_isPlain h st _ _ hrest hspells
    exact ⟨s, hs, rest_of_mem_ends hs hrest hpos⟩

/-! ## Matching a whole text -/

/-- An expression that is anchored at both ends of the text. -/
def anchored (e : Expr) : Expr := sequence [look .textStart, e, look .textEnd]

theorem mem_ends_anchored {e : Expr} (hs : s ∈ (anchored e).ends st) :
    st.prev = none ∧ ∃ t ∈ e.ends st, t.rest = [] := by
  obtain ⟨t, ht, hlook⟩ := mem_throughAll hs
  obtain ⟨st', hst', ht⟩ := mem_throughAll ht
  rw [ends] at hst' hlook
  split at hst'
  · rename_i hstart
    rw [List.mem_singleton.mp hst'] at ht
    split at hlook
    · rename_i hend
      refine ⟨Option.isNone_iff_eq_none.mp hstart, t, ht, ?_⟩
      exact List.head?_eq_none_iff.mp (Option.isNone_iff_eq_none.mp hend)
    · cases hlook
  · cases hst'

theorem ends_anchored_ne_nil {e : Expr} (hst : st.prev = none) (ht : t ∈ e.ends st)
    (hrest : t.rest = []) : (anchored e).ends st ≠ [] := by
  have hstart : (look .textStart).ends st = [st] := by
    rw [ends, if_pos]
    rw [hst]
    rfl
  obtain ⟨x, hx, hpos⟩ : ∃ x ∈ (cat (look .textStart) e).ends st, x.pos = t.pos :=
    exists_throughAll (by rw [hstart]; exact List.mem_singleton_self st) ht
  obtain ⟨u, hu, -⟩ := mem_ends hx
  obtain ⟨y, hy, -⟩ := mem_ends ht
  have hyrest : st.rest = y ++ [] := by rw [hy.rest_eq, hrest]
  have hxrest : x.rest = [] := (hu.eq_of_pos hyrest (by rw [hpos, hy.pos_eq])).2
  have hend : x ∈ (look .textEnd).ends x := by
    rw [ends, if_pos]
    · exact List.mem_singleton_self x
    · rw [hxrest]
      rfl
  obtain ⟨z, hz, -⟩ := exists_throughAll hx hend
  exact List.ne_nil_of_mem hz

/-- Behind the start of the text an anchored expression matches nowhere. -/
theorem searchFrom_anchored {e : Expr} {n : Nat} (h : st.prev ≠ none) :
    (anchored e).searchFrom n st = none := by
  induction n generalizing st with
  | zero => rfl
  | succ n ih =>
    have hnone : (anchored e).matchAt st = none := by
      rw [matchAt_eq_none_iff]
      apply List.eq_nil_iff_forall_not_mem.mpr
      intro s hs
      exact h (mem_ends_anchored hs).1
    rw [searchFrom, hnone]
    cases hrest : st.rest with
    | nil => simp only [State.next?, hrest]
    | cons c rest =>
      simp only [State.next?, hrest]
      exact ih (Option.some_ne_none c)

/-- A plain expression that is anchored at both ends matches exactly the texts that it spells. -/
theorem isMatch_anchored {e : Expr} (h : e.isPlain = true) (t : Text) :
    (anchored e).isMatch t = true ↔ e.Spells t := by
  have hends : (∃ s ∈ e.ends (State.start t), s.rest = []) ↔ e.Spells t :=
    exists_ends_iff h (State.start t)
  have hmatch : (anchored e).isMatch t =
      ((anchored e).searchFrom (t.length + 1) (State.start t)).isSome := rfl
  rw [← hends, hmatch, searchFrom]
  cases hm : (anchored e).matchAt (State.start t) with
  | some s =>
    obtain ⟨l, hl⟩ := matchAt_eq_some_iff.mp hm
    have hs : s ∈ (anchored e).ends (State.start t) := by
      rw [hl]
      exact List.mem_cons_self
    exact iff_of_true rfl (mem_ends_anchored hs).2
  | none =>
    refine iff_of_false ?_ ?_
    · cases t with
      | nil => exact Bool.false_ne_true
      | cons c t =>
        have hlater : (anchored e).searchFrom (t.length + 1) ⟨1, some c, t, []⟩ = none :=
          searchFrom_anchored (Option.some_ne_none c)
        show ¬ ((anchored e).searchFrom (t.length + 1) ⟨1, some c, t, []⟩).isSome = true
        rw [hlater]
        exact Bool.false_ne_true
    · intro hs
      obtain ⟨s, hs, hrest⟩ := hs
      exact ends_anchored_ne_nil rfl hs hrest (matchAt_eq_none_iff.mp hm)

end Expr

end DocCoverage.Pattern
