import DocCoverage.Pattern.Match
import Mathlib.Tactic.Common
import Mathlib.Data.List.Basic

/-!
# The texts that a pattern spells

Every place that an expression reaches lies behind a text of its language. The language forgets
the conditions on places, the groups and the preference among matches, so this says where matches
cannot be; which place is reached first is another matter.
-/
namespace DocCoverage.Pattern

/-- The second place lies behind a text that stands at the first. -/
structure State.Behind (st : State) (u : Text) (s : State) : Prop where
  rest_eq : st.rest = u ++ s.rest
  pos_eq : s.pos = st.pos + u.length

namespace State.Behind

variable {st s t : State} {u v : Text}

theorem refl (st : State) : st.Behind [] st := ⟨rfl, rfl⟩

theorem trans (h : st.Behind u s) (h' : s.Behind v t) : st.Behind (u ++ v) t := by
  constructor
  · rw [h.rest_eq, h'.rest_eq, List.append_assoc]
  · rw [h'.pos_eq, h.pos_eq, List.length_append, Nat.add_assoc]

end State.Behind

theorem CharSet.contains_single {c d : Char} : (single c).contains d = true ↔ d = c := by
  rw [single, contains, Text.Ranges.covers_iff]
  constructor
  · rintro ⟨r, hr, hlo, hhi⟩
    obtain rfl := List.mem_singleton.mp hr
    exact Char.toNat_inj.mp (Nat.le_antisymm hhi hlo)
  · rintro rfl
    exact ⟨_, List.mem_singleton_self _, Nat.le_refl _, Nat.le_refl _⟩

/-- The texts that an expression can match, whatever stands around them. -/
def Expr.Spells : Expr → Text → Prop
  | .empty, u => u = []
  | .chars s, u => ∃ c, u = [c] ∧ s.contains c = true
  | .look _, u => u = []
  | .cat a b, u => ∃ x y, u = x ++ y ∧ a.Spells x ∧ b.Spells y
  | .alt a b, u => a.Spells u ∨ b.Spells u
  | .rep body least most _, u =>
    ∃ us : List Text, u = us.flatten ∧ (∀ x ∈ us, body.Spells x) ∧ least ≤ us.length ∧
      ∀ m ∈ most, us.length ≤ max least m
  | .group _ body, u => body.Spells u

theorem mem_firstsFrom {seen : Places} {s : State} {sts : List State}
    (h : s ∈ firstsFrom seen sts) : s ∈ sts := by
  induction sts generalizing seen with
  | nil => exact h
  | cons t sts ih =>
    rw [firstsFrom] at h
    split at h
    · exact List.mem_cons_of_mem _ (ih h)
    · rcases List.mem_cons.mp h with rfl | h
      · exact List.mem_cons_self
      · exact List.mem_cons_of_mem _ (ih h)

theorem mem_throughAll {step : State → List State} {s : State} {sts : List State}
    (h : s ∈ throughAll step sts) : ∃ t ∈ sts, s ∈ step t :=
  List.mem_flatMap.mp (mem_firstsFrom h)

/-- A number of copies of a step, each over a text of a class, lead from one place to another. -/
def Copies (p : Text → Prop) (k : Nat) (st s : State) : Prop :=
  ∃ us : List Text, us.length = k ∧ (∀ u ∈ us, p u) ∧ st.Behind us.flatten s

namespace Copies

variable {p : Text → Prop} {k : Nat} {st s t : State} {u : Text}

theorem zero (st : State) : Copies p 0 st st :=
  ⟨[], rfl, by simp, .refl st⟩

theorem cons (h : st.Behind u s) (hu : p u) (hs : Copies p k s t) : Copies p (k + 1) st t := by
  obtain ⟨us, hlen, hus, ht⟩ := hs
  refine ⟨u :: us, by rw [List.length_cons, hlen], ?_, h.trans ht⟩
  intro x hx
  rcases List.mem_cons.mp hx with rfl | hx
  · exact hu
  · exact hus x hx

theorem append {j : Nat} (h : Copies p k st s) (h' : Copies p j s t) : Copies p (k + j) st t := by
  obtain ⟨us, rfl, hus, hs⟩ := h
  obtain ⟨vs, rfl, hvs, ht⟩ := h'
  refine ⟨us ++ vs, by rw [List.length_append], ?_, by rw [List.flatten_append]; exact hs.trans ht⟩
  intro x hx
  rcases List.mem_append.mp hx with hx | hx
  · exact hus x hx
  · exact hvs x hx

end Copies

theorem mem_foldl {step : Frontier → State → Frontier} {q : Prop} {x : State} {sts : List State}
    (h : ∀ s ∈ sts, ∀ f : Frontier, x ∈ (step f s).found → x ∈ f.found ∨ q) (f : Frontier)
    (hx : x ∈ (sts.foldl step f).found) : x ∈ f.found ∨ q := by
  induction sts generalizing f with
  | nil => exact Or.inl hx
  | cons s sts ih =>
    rw [List.foldl_cons] at hx
    rcases ih (fun t ht => h t (List.mem_cons_of_mem s ht)) _ hx with hx | hq
    · exact h s List.mem_cons_self f hx
    · exact Or.inr hq

section

variable {p : Text → Prop} {body : State → List State} {greedy : Bool}
  (hbody : ∀ st, ∀ s ∈ body st, ∃ u, st.Behind u s ∧ p u)
include hbody

theorem mem_explore {key : Nat → State → Nat} {n : Nat} {f : Frontier} {st x : State}
    (h : x ∈ (explore body greedy key n f st).found) :
    x ∈ f.found ∨ ∃ k, k ≤ n ∧ Copies p k st x := by
  induction n generalizing f st with
  | zero =>
    rcases List.mem_cons.mp h with rfl | h
    · exact Or.inr ⟨0, Nat.le_refl 0, .zero x⟩
    · exact Or.inl h
  | succ n ih =>
    have hfold : ∀ g : Frontier, x ∈ ((body st).foldl (explore body greedy key n) g).found →
        x ∈ g.found ∨ ∃ k, k ≤ n + 1 ∧ Copies p k st x := by
      apply mem_foldl
      intro s hs g hx
      rcases ih hx with hx | ⟨k, hk, hx⟩
      · exact Or.inl hx
      · obtain ⟨u, hu, hpu⟩ := hbody st s hs
        exact Or.inr ⟨k + 1, by omega, .cons hu hpu hx⟩
    have hhere : ∃ k, k ≤ n + 1 ∧ Copies p k st st := ⟨0, by omega, .zero st⟩
    rw [explore] at h
    split at h
    · exact Or.inl h
    · dsimp only at h
      split at h
      · rcases List.mem_cons.mp h with rfl | h
        · exact Or.inr hhere
        · exact hfold { f with seen := Places.insert f.seen (key (n + 1) st) } h
      · rcases hfold _ h with h | h
        · rcases List.mem_cons.mp h with rfl | h
          · exact Or.inr hhere
          · exact Or.inl h
        · exact Or.inr h

theorem mem_upTo {n : Nat} {st x : State} (h : x ∈ upTo body greedy n st) :
    ∃ k, k ≤ n ∧ Copies p k st x := by
  have hx := List.mem_reverse.mp (mem_firstsFrom h)
  exact (mem_explore hbody hx).resolve_left (by simp)

theorem mem_oneOrMore {st x : State} (h : x ∈ oneOrMore body greedy st) :
    ∃ k, 1 ≤ k ∧ Copies p k st x := by
  have hx := List.mem_reverse.mp (mem_firstsFrom h)
  have hfold : ∀ f : Frontier, x ∈ ((body st).foldl (fun f s => if s.pos == st.pos then f.emit s
      else explore body greedy (fun _ s => s.pos) (st.rest.length + 2) f s) f).found →
      x ∈ f.found ∨ ∃ k, 1 ≤ k ∧ Copies p k st x := by
    apply mem_foldl
    intro s hs f hx
    obtain ⟨u, hu, hpu⟩ := hbody st s hs
    split at hx
    · rcases List.mem_cons.mp hx with rfl | hx
      · exact Or.inr ⟨1, Nat.le_refl 1, .cons hu hpu (.zero x)⟩
      · exact Or.inl hx
    · rcases mem_explore hbody hx with hx | ⟨k, -, hx⟩
      · exact Or.inl hx
      · exact Or.inr ⟨k + 1, by omega, .cons hu hpu hx⟩
  exact (hfold _ hx).resolve_left (by simp)

theorem mem_anyNumber {st x : State} (h : x ∈ anyNumber body greedy st) :
    ∃ k, Copies p k st x := by
  have hcases : x = st ∨ x ∈ oneOrMore body greedy st := by
    rw [anyNumber] at h
    split at h
    · rcases List.mem_append.mp (mem_firstsFrom h) with h | h
      · exact Or.inr h
      · exact Or.inl (List.mem_singleton.mp h)
    · exact List.mem_cons.mp (mem_firstsFrom h)
  rcases hcases with rfl | h
  · exact ⟨0, .zero x⟩
  · obtain ⟨k, -, hk⟩ := mem_oneOrMore hbody h
    exact ⟨k, hk⟩

theorem mem_exactly {n : Nat} {sts : List State} {x : State} (h : x ∈ exactly body n sts) :
    ∃ s ∈ sts, Copies p n s x := by
  induction n generalizing sts with
  | zero => exact ⟨x, h, .zero x⟩
  | succ n ih =>
    obtain ⟨s, hs, hx⟩ := ih h
    obtain ⟨t, ht, hst⟩ := mem_throughAll hs
    obtain ⟨u, hu, hpu⟩ := hbody t s hst
    exact ⟨t, ht, .cons hu hpu hx⟩

end

/-- Every place that a repetition reaches lies behind a number of copies between its bounds. -/
theorem Expr.mem_ends_rep {body : Expr} {least : Nat} {most : Option Nat} {greedy : Bool}
    (hbody : ∀ st, ∀ s ∈ body.ends st, ∃ u, st.Behind u s ∧ body.Spells u) {st s : State}
    (h : s ∈ (Expr.rep body least most greedy).ends st) :
    ∃ k, least ≤ k ∧ (∀ m ∈ most, k ≤ max least m) ∧ Copies body.Spells k st s := by
  cases most with
  | some m =>
    rw [ends] at h
    obtain ⟨t, ht, hs⟩ := mem_throughAll h
    obtain ⟨t₀, ht₀, hcopies⟩ := mem_exactly hbody ht
    obtain rfl := List.mem_singleton.mp ht₀
    obtain ⟨k, hk, hs⟩ := mem_upTo hbody hs
    refine ⟨least + k, by omega, ?_, hcopies.append hs⟩
    rintro _ ⟨rfl⟩
    omega
  | none =>
    cases least with
    | zero =>
      rw [ends] at h
      obtain ⟨k, hk⟩ := mem_anyNumber hbody h
      exact ⟨k, Nat.zero_le k, by simp, hk⟩
    | succ least =>
      rw [ends] at h
      obtain ⟨t, ht, hs⟩ := mem_throughAll h
      obtain ⟨t₀, ht₀, hcopies⟩ := mem_exactly hbody ht
      obtain rfl := List.mem_singleton.mp ht₀
      obtain ⟨k, hk, hs⟩ := mem_oneOrMore hbody hs
      exact ⟨least + k, by omega, by simp, hcopies.append hs⟩

/-- Every place that an expression reaches lies behind a text that it spells. -/
theorem Expr.mem_ends {e : Expr} {st s : State} (h : s ∈ e.ends st) :
    ∃ u, st.Behind u s ∧ e.Spells u := by
  induction e generalizing st s with
  | empty =>
    obtain rfl := List.mem_singleton.mp h
    exact ⟨[], .refl s, rfl⟩
  | chars cs =>
    rw [ends] at h
    cases hrest : st.rest with
    | nil =>
      rw [State.next?, hrest] at h
      cases h
    | cons c rest =>
      simp only [State.next?, hrest] at h
      split at h
      · rename_i hc
        obtain rfl := List.mem_singleton.mp h
        exact ⟨[c], ⟨hrest, rfl⟩, c, rfl, hc⟩
      · cases h
  | look l =>
    rw [ends] at h
    split at h
    · obtain rfl := List.mem_singleton.mp h
      exact ⟨[], .refl s, rfl⟩
    · cases h
  | cat a b iha ihb =>
    obtain ⟨t, ht, hs⟩ := mem_throughAll h
    obtain ⟨x, hx, hax⟩ := iha ht
    obtain ⟨y, hy, hby⟩ := ihb hs
    exact ⟨x ++ y, hx.trans hy, x, y, rfl, hax, hby⟩
  | alt a b iha ihb =>
    rcases List.mem_append.mp (mem_firstsFrom h) with h | h
    · obtain ⟨u, hu, hau⟩ := iha h
      exact ⟨u, hu, Or.inl hau⟩
    · obtain ⟨u, hu, hbu⟩ := ihb h
      exact ⟨u, hu, Or.inr hbu⟩
  | rep body least most greedy ih =>
    have hbody : ∀ st, ∀ s ∈ body.ends st, ∃ u, st.Behind u s ∧ body.Spells u :=
      fun st s hs => ih hs
    obtain ⟨k, hleast, hmost, us, rfl, hus, hs⟩ := mem_ends_rep hbody h
    exact ⟨us.flatten, hs, us, rfl, hus, hleast, hmost⟩
  | group name body ih =>
    cases name with
    | none => exact ih h
    | some name =>
      rw [ends] at h
      obtain ⟨t, ht, rfl⟩ := List.mem_map.mp h
      obtain ⟨u, hu, hspells⟩ := ih ht
      exact ⟨u, ⟨hu.rest_eq, hu.pos_eq⟩, hspells⟩

namespace Expr

theorem spells_sequence {es : List Expr} {u : Text} (h : (sequence es).Spells u) :
    ∃ us, List.Forall₂ Spells es us ∧ u = us.flatten := by
  cases es with
  | nil => exact ⟨[], .nil, h⟩
  | cons e es =>
    rw [sequence] at h
    induction es generalizing e with
    | nil => exact ⟨[u], .cons h .nil, by simp⟩
    | cons d es ih =>
      obtain ⟨us, hus, rfl⟩ := ih (cat e d) h
      cases hus with
      | cons head tail =>
        obtain ⟨x, y, rfl, hx, hy⟩ := head
        exact ⟨_, .cons hx (.cons hy tail), by simp⟩

theorem sequence_spells {es : List Expr} {us : List Text} (h : List.Forall₂ Spells es us) :
    (sequence es).Spells us.flatten := by
  cases h with
  | nil => rfl
  | @cons e x es us hx hus =>
    rw [sequence, List.flatten_cons]
    induction hus generalizing e x with
    | nil => simpa using hx
    | @cons d y es us hy _ ih =>
      rw [List.foldl_cons, List.flatten_cons, ← List.append_assoc]
      exact ih (e := cat e d) ⟨x, y, rfl, hx, hy⟩

/-- A sequence spells what its first part and the rest of it spell one after the other. -/
theorem spells_sequence_cons {e : Expr} {es : List Expr} {u : Text} :
    (sequence (e :: es)).Spells u ↔ ∃ x y, u = x ++ y ∧ e.Spells x ∧ (sequence es).Spells y := by
  constructor
  · intro h
    obtain ⟨us, hus, rfl⟩ := spells_sequence h
    cases hus with
    | @cons _ x _ us hx hus => exact ⟨x, us.flatten, rfl, hx, sequence_spells hus⟩
  · intro h
    obtain ⟨x, y, rfl, hx, hy⟩ := h
    obtain ⟨us, hus, rfl⟩ := spells_sequence hy
    have hall := List.Forall₂.cons hx hus
    exact sequence_spells hall

theorem spells_sequence_append {es fs : List Expr} {u : Text} :
    (sequence (es ++ fs)).Spells u ↔
      ∃ x y, u = x ++ y ∧ (sequence es).Spells x ∧ (sequence fs).Spells y := by
  induction es generalizing u with
  | nil =>
    constructor
    · exact fun h => ⟨[], u, rfl, rfl, h⟩
    · intro h
      obtain ⟨x, y, rfl, hx, hy⟩ := h
      rw [show x = [] from hx]
      exact hy
  | cons e es ih =>
    simp only [List.cons_append, spells_sequence_cons, ih]
    constructor
    · intro h
      obtain ⟨x, _, rfl, hx, y, z, rfl, hy, hz⟩ := h
      exact ⟨x ++ y, z, (List.append_assoc ..).symm, ⟨x, y, rfl, hx, hy⟩, hz⟩
    · intro h
      obtain ⟨_, z, rfl, ⟨x, y, rfl, hx, hy⟩, hz⟩ := h
      exact ⟨x, y ++ z, List.append_assoc .., hx, y, z, rfl, hy, hz⟩

theorem spells_chars_star {cs : CharSet} {least : Nat} {most : Option Nat} {greedy : Bool}
    {u : Text} (h : (rep (chars cs) least most greedy).Spells u) :
    ∀ c ∈ u, cs.contains c = true := by
  obtain ⟨us, rfl, hus, -, -⟩ := h
  intro c hc
  obtain ⟨x, hx, hcx⟩ := List.mem_flatten.mp hc
  obtain ⟨d, rfl, hd⟩ := hus x hx
  obtain rfl := List.mem_singleton.mp hcx
  exact hd

theorem spells_chars_any {cs : CharSet} {greedy : Bool} {u : Text} :
    (rep (chars cs) 0 none greedy).Spells u ↔ ∀ c ∈ u, cs.contains c = true := by
  refine ⟨spells_chars_star, fun h => ⟨u.map fun c => [c], ?_, ?_, Nat.zero_le _, by simp⟩⟩
  · rw [← List.flatMap_def, List.flatMap_singleton']
  · intro x hx
    obtain ⟨c, hc, rfl⟩ := List.mem_map.mp hx
    exact ⟨c, rfl, h c hc⟩

theorem spells_chars_plus {cs : CharSet} {greedy : Bool} {u : Text} :
    (rep (chars cs) 1 none greedy).Spells u ↔ u ≠ [] ∧ ∀ c ∈ u, cs.contains c = true := by
  constructor
  · intro h
    refine ⟨?_, spells_chars_star h⟩
    obtain ⟨us, rfl, hus, hlen, -⟩ := h
    obtain ⟨x, us, rfl⟩ := List.exists_cons_of_length_pos hlen
    obtain ⟨c, rfl, -⟩ := hus x List.mem_cons_self
    simp
  · intro h
    refine ⟨u.map fun c => [c], ?_, fun x hx => ?_, ?_, by simp⟩
    · rw [← List.flatMap_def, List.flatMap_singleton']
    · obtain ⟨c, hc, rfl⟩ := List.mem_map.mp hx
      exact ⟨c, rfl, h.2 c hc⟩
    · rw [List.length_map]
      exact List.length_pos_of_ne_nil h.1

/-- A repetition spells the texts of lists whose members the body spells one by one. -/
theorem spells_star {α : Type} {body : Expr} {greedy : Bool} {p : α → Prop} {f : α → Text}
    (h : ∀ u, body.Spells u ↔ ∃ x, p x ∧ u = f x) {u : Text} :
    (rep body 0 none greedy).Spells u ↔ ∃ xs : List α, (∀ x ∈ xs, p x) ∧ u = xs.flatMap f := by
  constructor
  · intro hu
    obtain ⟨us, rfl, hus, -, -⟩ := hu
    induction us with
    | nil => exact ⟨[], by simp, rfl⟩
    | cons u us ih =>
      obtain ⟨x, hx, rfl⟩ := (h u).mp (hus u List.mem_cons_self)
      obtain ⟨xs, hxs, hflat⟩ := ih fun d hd => hus d (List.mem_cons_of_mem _ hd)
      refine ⟨x :: xs, fun y hy => ?_, by rw [List.flatten_cons, hflat, List.flatMap_cons]⟩
      rcases List.mem_cons.mp hy with rfl | hy
      · exact hx
      · exact hxs y hy
  · intro hu
    obtain ⟨xs, hxs, rfl⟩ := hu
    refine ⟨xs.map f, List.flatMap_def.symm ▸ rfl, fun u hu => ?_, Nat.zero_le _, by simp⟩
    obtain ⟨x, hx, rfl⟩ := List.mem_map.mp hu
    exact (h (f x)).mpr ⟨x, hxs x hx, rfl⟩

end Expr

end DocCoverage.Pattern
