import DocCoverage.Proofs.Scan.Partition

/-!
# What a span keeps of its own text

The own text of a span is its text with the children cut out. It is put together stretch by
stretch: a stretch without children is kept, a child is cut out, and what is kept of two stretches
stands one behind the other.
-/
namespace DocCoverage

/-- A stretch of text that starts at an offset of the file, the spans in it and what is left of it
when they are cut out. -/
inductive Kept : Nat → Text → List Span → Text → Prop
  | plain (pos : Nat) (u : Text) : Kept pos u [] u
  | child {pos : Nat} {u : Text} {s : Span} (start : s.start = pos)
      (stop : s.stop = pos + Text.byteLength u) : Kept pos u [s] []
  | append {pos : Nat} {u u' : Text} {spans spans' : List Span} {w w' : Text}
      (front : Kept pos u spans w) (back : Kept (pos + Text.byteLength u) u' spans' w') :
      Kept pos (u ++ u') (spans ++ spans') (w ++ w')

namespace Span

variable {s : Span} {pos : Nat} {u w : Text} {spans : List Span}

/-- From an offset on, the span keeps a text when some spans are cut out. -/
def KeepsFrom (s : Span) (first : Nat) (spans : List Span) (w : Text) : Prop :=
  (s.gapsFrom? first spans).map List.flatten = some w

/-- The stretch stands in the span at an offset of the file. -/
def TextAt (s : Span) (pos : Nat) (u : Text) : Prop :=
  ∃ a b, s.text = a ++ (u ++ b) ∧ pos = s.start + Text.byteLength a

theorem TextAt.split {v : Text} (h : s.TextAt pos (u ++ v)) :
    s.TextAt pos u ∧ s.TextAt (pos + Text.byteLength u) v := by
  obtain ⟨a, b, htext, rfl⟩ := h
  refine ⟨⟨a, v ++ b, by rw [htext, List.append_assoc], rfl⟩, a ++ u, b, ?_, ?_⟩
  · rw [htext, List.append_assoc, List.append_assoc]
  · rw [Text.byteLength_append, Nat.add_assoc]

theorem gap?_eq_some_iff {first last : Nat} {g : Text} :
    s.gap? first last = some g ↔ s.TextAt first g ∧ last = first + Text.byteLength g := by
  constructor
  · intro h
    unfold gap? at h
    split at h
    · cases h
    · rename_i hle
      simp only [Bool.or_eq_true, decide_eq_true_eq, not_or, Nat.not_lt] at hle
      obtain ⟨a, b, htext, ha, hg⟩ := Text.slice?_eq_some_iff.mp h
      exact ⟨⟨a, b, htext, by omega⟩, by omega⟩
  · intro h
    obtain ⟨⟨a, b, htext, rfl⟩, rfl⟩ := h
    exact gap?_eq_some htext rfl rfl

theorem gap?_extend {last : Nat} {g : Text} (hu : s.TextAt pos u)
    (h : s.gap? (pos + Text.byteLength u) last = some g) : s.gap? pos last = some (u ++ g) := by
  obtain ⟨⟨a', b', htext', hpos⟩, rfl⟩ := gap?_eq_some_iff.mp h
  obtain ⟨a, b, htext, rfl⟩ := hu
  have hsplit : (a ++ u) ++ b = a' ++ (g ++ b') := by
    rw [← htext', htext, List.append_assoc]
  obtain ⟨rfl, rfl⟩ := Text.append_inj_of_byteLength hsplit (by
    rw [Text.byteLength_append]
    omega)
  refine gap?_eq_some_iff.mpr ⟨⟨a, b', by rw [htext, List.append_assoc], rfl⟩, ?_⟩
  rw [Text.byteLength_append, ← Nat.add_assoc]

theorem keepsFrom_nil_iff : s.KeepsFrom pos [] w ↔ s.gap? pos s.stop = some w := by
  rw [KeepsFrom, gapsFrom?]
  cases s.gap? pos s.stop <;> simp

theorem keepsFrom_cons_iff {c : Span} : s.KeepsFrom pos (c :: spans) w ↔
    ∃ g w', s.gap? pos c.start = some g ∧ s.KeepsFrom c.stop spans w' ∧ w = g ++ w' := by
  simp only [KeepsFrom, gapsFrom?]
  cases s.gap? pos c.start with
  | none => simp
  | some g =>
    cases s.gapsFrom? c.stop spans with
    | none => simp
    | some gaps => simp [eq_comm]

theorem KeepsFrom.extend (hu : s.TextAt pos u) (h : s.KeepsFrom (pos + Text.byteLength u) spans w) :
    s.KeepsFrom pos spans (u ++ w) := by
  cases spans with
  | nil => exact keepsFrom_nil_iff.mpr (gap?_extend hu (keepsFrom_nil_iff.mp h))
  | cons c spans =>
    obtain ⟨g, w', hgap, hrest, rfl⟩ := keepsFrom_cons_iff.mp h
    exact keepsFrom_cons_iff.mpr
      ⟨u ++ g, w', gap?_extend hu hgap, hrest, (List.append_assoc ..).symm⟩

/-- A stretch in front of the rest of the span keeps what it keeps alone. -/
theorem KeepsFrom.front (hkept : Kept pos u spans w) (hu : s.TextAt pos u) {spans' : List Span}
    {w' : Text} (h : s.KeepsFrom (pos + Text.byteLength u) spans' w') :
    s.KeepsFrom pos (spans ++ spans') (w ++ w') := by
  induction hkept generalizing spans' w' with
  | plain pos u => exact h.extend hu
  | @child pos u c start stop =>
    have hgap : s.gap? pos c.start = some [] := by
      obtain ⟨a, b, htext, hpos⟩ := hu
      exact gap?_eq_some_iff.mpr ⟨⟨a, u ++ b, htext, hpos⟩, start⟩
    rw [← stop] at h
    exact keepsFrom_cons_iff.mpr ⟨[], w', hgap, h, rfl⟩
  | append _ _ ih ih' =>
    obtain ⟨hfront, hback⟩ := hu.split
    rw [Text.byteLength_append, ← Nat.add_assoc] at h
    rw [List.append_assoc, List.append_assoc]
    exact ih hfront (ih' hback h)

/-- A span keeps as its own text what its whole text keeps. -/
theorem ownText_of_kept (h : Kept s.start s.text s.children w)
    (hstop : s.stop = s.start + Text.byteLength s.text) : s.ownText = w := by
  have hend : s.KeepsFrom s.stop [] [] := by
    have hgap : s.gap? s.stop s.stop = some [] :=
      gap?_eq_some_iff.mpr ⟨⟨s.text, [], (List.append_nil _).symm, hstop⟩, rfl⟩
    exact keepsFrom_nil_iff.mpr hgap
  rw [hstop] at hend
  have hall := hend.front h ⟨[], [], by simp, rfl⟩
  rw [List.append_nil, List.append_nil] at hall
  rw [ownText, ownText?, show Option.map _ _ = some w from hall]
  rfl

end Span

end DocCoverage
