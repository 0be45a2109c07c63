import DocCoverage.Proofs.Comments.Ahead
import DocCoverage.Proofs.Locality.Shift
import DocCoverage.Proofs.Scan.Extents

/-!
# Putting other text into a file

A piece of a file is replaced by other text. Spans in front of the piece stay as they are, those
behind it move with the text, and those around it have the piece replaced in their own text.
-/
namespace DocCoverage

/-- The text with the `len` bytes from offset `n` on replaced. -/
def Text.splice (n len : Nat) (new t : Text) : Text :=
  slice t 0 n ++ (new ++ slice t (n + len) (byteLength t))

theorem Text.splice_append {a old : Text} {n len : Nat} (ha : byteLength a = n)
    (hold : byteLength old = len) (new b : Text) :
    splice n len new (a ++ (old ++ b)) = a ++ (new ++ b) := by
  have hlast : slice (a ++ (old ++ b)) (n + len) (byteLength (a ++ (old ++ b))) = b := by
    have hslice : slice? (a ++ (old ++ b)) (n + len) (byteLength (a ++ (old ++ b))) = some b :=
      slice?_eq_some_iff.mpr ⟨a ++ old, [], by simp, by simp; omega, by simp; omega⟩
    rw [slice, hslice]
    rfl
  rw [splice, slice_front ha, hlast]

/-- The `len` bytes from offset `n` on are replaced. -/
def Move.splice (n len : Nat) (new : Text) : Move where
  start e := if e ≤ n then e else e - len + Text.byteLength new
  stop e := if e ≤ n then e else e - len + Text.byteLength new
  text e t :=
    if n < e ∧ e ≤ n + Text.byteLength t then
      Text.splice (n + Text.byteLength t - e) len new t
    else t

namespace Move

variable {n len : Nat} {new : Text}

theorem splice_stop_of_le {e : Nat} (h : e ≤ n) : (splice n len new).stop e = e := if_pos h

theorem splice_stop_of_ge {e : Nat} (hlen : 0 < len) (h : n + len ≤ e) :
    (splice n len new).stop e + (n + len) = e + (n + Text.byteLength new) := by
  have hstop : (splice n len new).stop e = e - len + Text.byteLength new := if_neg (by omega)
  omega

/-- Behind the piece everything moves with the text. -/
theorem splice_rigid (hlen : 0 < len) :
    (splice n len new).Rigid (n + len) (n + Text.byteLength new) where
  start e h := splice_stop_of_ge hlen h
  stop e h := splice_stop_of_ge hlen h
  text e t h := if_neg (by omega)

theorem splice_text_of_le {e : Nat} (h : e ≤ n) (t : Text) : (splice n len new).text e t = t :=
  if_neg (by omega)

/-- The piece is replaced in the text of a span around it. -/
theorem splice_text_around {a old b : Text} {e : Nat} (hold : Text.byteLength old = len)
    (hlen : 0 < len) (he : e = n + Text.byteLength (old ++ b)) :
    (splice n len new).text e (a ++ (old ++ b)) = a ++ (new ++ b) := by
  have hcond : n < e ∧ e ≤ n + Text.byteLength (a ++ (old ++ b)) := by
    simp only [Text.byteLength_append] at *
    omega
  have hfront : n + Text.byteLength (a ++ (old ++ b)) - e = Text.byteLength a := by
    simp only [Text.byteLength_append] at *
    omega
  exact (if_pos hcond).trans (by rw [hfront, Text.splice_append rfl hold])

end Move

/-- A comment of a file, the text to stand in its place, and the text behind it. -/
structure Rewording where
  comment : Span
  new : Text
  behind : Text
  kind_eq : comment.kind = .comment
  children_eq : comment.children = []
  stop_eq : comment.stop = comment.start + Text.byteLength comment.text
  head : ∃ t, comment.text = '#' :: t
  new_head : ∃ t, new = '#' :: t
  new_line : '\n' ∉ new
  behind_head : behind.headD '\n' = '\n'
  /-- Neither comment goes on behind its line. -/
  even : behind ≠ [] → (comment.text.reverse.takeWhile (· == '\\')).length % 2 = 0
  new_even : behind ≠ [] → (new.reverse.takeWhile (· == '\\')).length % 2 = 0

namespace Rewording

variable (x : Rewording)

/-- The move of the file's spans. -/
def move : Move := .splice x.comment.start (Text.byteLength x.comment.text) x.new

theorem len_pos : 0 < Text.byteLength x.comment.text := by
  obtain ⟨t, ht⟩ := x.head
  exact Text.byteLength_pos (by simp [ht])

theorem start_lt_stop : x.comment.start < x.comment.stop := by
  have hstop := x.stop_eq
  have hlen := x.len_pos
  omega

theorem rigid : x.move.Rigid x.comment.stop (x.comment.start + Text.byteLength x.new) := by
  rw [x.stop_eq]
  exact Move.splice_rigid x.len_pos

theorem move_start (e : Nat) : x.move.start e = x.move.stop e := rfl

theorem stop_of_le {e : Nat} (h : e ≤ x.comment.start) : x.move.stop e = e :=
  Move.splice_stop_of_le h

theorem stop_comment : x.move.stop x.comment.stop = x.comment.start + Text.byteLength x.new := by
  have hmoved := x.rigid.stop x.comment.stop (Nat.le_refl _)
  omega

section

variable {s : Span}

theorem start_of_le (h : s.start ≤ x.comment.start) : (s.move x.move).start = s.start := by
  rw [Span.move_start, x.move_start, x.stop_of_le h]

theorem text_before (h : s.stop ≤ x.comment.start) : x.move.text s.stop s.text = s.text :=
  Move.splice_text_of_le h _

variable (hstop : s.stop = s.start + Text.byteLength s.text)
include hstop

theorem text_behind (h : x.comment.stop ≤ s.start) : x.move.text s.stop s.text = s.text :=
  x.rigid.text _ _ (by omega)

theorem text_around {w rest : Text} (htext : s.text = w ++ (x.comment.text ++ rest))
    (hstart : x.comment.start = s.start + Text.byteLength w) :
    x.move.text s.stop s.text = w ++ (x.new ++ rest) := by
  have hlen := congrArg Text.byteLength htext
  rw [Text.byteLength_append] at hlen
  rw [htext]
  exact Move.splice_text_around rfl x.len_pos (by omega)

end

theorem text_comment : x.move.text x.comment.stop x.comment.text = x.new := by
  have htext : x.comment.text = [] ++ (x.comment.text ++ []) := by simp
  have haround := x.text_around x.stop_eq htext rfl
  simpa using haround

/-- The span lies in front of the comment, around it, or behind it. -/
structure Fits (s : Span) : Prop where
  cases : s.stop ≤ x.comment.start ∨ x.comment ∈ s.preorder ∨ x.comment.stop ≤ s.start
  around : x.comment ∈ s.preorder → s.start ≤ x.comment.start ∧ x.comment.stop ≤ s.stop

end Rewording

/-- The opening reaches the comment behind the text `w`, with its opener in front of it. -/
structure Opening.Reaches (x : Rewording) (o : Opening) (w : Text) : Prop where
  text_eq : o.text = w ++ (x.comment.text ++ x.behind)
  start_eq : o.start + Text.byteLength w = x.comment.start
  opener_le : o.width Rule.standard ≤ Text.byteLength w

/-- The same opening in the file with the comment reworded. -/
def Opening.reworded (x : Rewording) (o : Opening) : Opening :=
  { o with
    text := Text.splice (x.comment.start - o.start) (Text.byteLength x.comment.text) x.new o.text }

namespace Opening.Reaches

variable {x : Rewording} {o : Opening} {w : Text}

theorem reworded_text (h : o.Reaches x w) : (o.reworded x).text = w ++ (x.new ++ x.behind) := by
  have hstart := h.start_eq
  simp only [reworded, h.text_eq]
  exact Text.splice_append (by omega) rfl x.new x.behind

theorem refine_eq (h : o.Reaches x w) (k : SpanKind) :
    (o.reworded x).kind.refine (o.reworded x).text k = o.kind.refine o.text k := by
  obtain ⟨t, ht⟩ := x.head
  obtain ⟨t', ht'⟩ := x.new_head
  have hstart : Text.startsWith (w ++ '#' :: (t' ++ x.behind)) "@classmethod" =
      Text.startsWith (w ++ '#' :: (t ++ x.behind)) "@classmethod" :=
    Text.startsWith_localTo (by decide) w _ _
  rw [h.reworded_text, h.text_eq, ht, ht']
  simp only [SpanKind.refine, reworded, List.cons_append, hstart]

/-- The end of the span is not inside the comment. -/
theorem stop_cases (h : o.Reaches x w) {s : Span} (hstart : s.start = o.start) (hfit : x.Fits s) :
    s.stop ≤ x.comment.start ∨ x.comment.stop ≤ s.stop := by
  have hreach := h.start_eq
  have hlen := x.len_pos
  have hstop := x.stop_eq
  rcases hfit.cases with hle | hin | hge
  · exact Or.inl hle
  · exact Or.inr (hfit.around hin).2
  · omega

theorem text_before (h : o.Reaches x w) {s : Span} (hread : o.Reading Rule.standard s)
    (hle : s.stop ≤ x.comment.start) : ∃ rest, w = s.text ++ rest := by
  have hreach := h.start_eq
  have hstart := hread.start_eq
  have hstop := hread.stop_eq
  obtain ⟨after, hafter⟩ := hread.text_eq
  obtain ⟨rest, hrest, -⟩ := Text.append_split_of_le (hafter.symm.trans h.text_eq) (by omega)
  exact ⟨rest, hrest⟩

theorem text_around (h : o.Reaches x w) {s : Span} (hread : o.Reading Rule.standard s)
    (hle : x.comment.stop ≤ s.stop) :
    ∃ rest after, s.text = w ++ (x.comment.text ++ rest) ∧ x.behind = rest ++ after := by
  have hreach := h.start_eq
  have hstart := hread.start_eq
  have hstop := hread.stop_eq
  have hend := x.stop_eq
  obtain ⟨after, hafter⟩ := hread.text_eq
  have hcut := h.text_eq.symm.trans hafter
  rw [← List.append_assoc] at hcut
  obtain ⟨rest, hrest, hbehind⟩ := Text.append_split_of_le hcut (by
    rw [Text.byteLength_append]
    omega)
  exact ⟨rest, after, by rw [hrest, List.append_assoc], hbehind⟩

/-- A finished span, closed in the reworded file instead, is the moved span. -/
theorem close_eq (h : o.Reaches x w) {s : Span} (hread : o.Reading Rule.standard s)
    (hclose : s = o.close s.stop s.unterminated s.children) (hfit : x.Fits s) :
    (o.reworded x).close (x.move.stop s.stop) s.unterminated
      (s.children.map (Span.move x.move)) = s.move x.move := by
  have hreach := h.start_eq
  have hlen := x.len_pos
  have hend := x.stop_eq
  have hstart := hread.start_eq
  have hstop := hread.stop_eq
  have htext : Text.slice (o.reworded x).text 0 (x.move.stop s.stop - o.start) =
      x.move.text s.stop s.text := by
    rw [h.reworded_text]
    rcases h.stop_cases hstart hfit with hle | hge
    · obtain ⟨rest, rfl⟩ := h.text_before hread hle
      rw [x.stop_of_le hle, x.text_before hle, List.append_assoc]
      exact Text.slice_front (by omega)
    · obtain ⟨rest, after, hs, hbehind⟩ := h.text_around hread hge
      have hmoved := x.rigid.stop s.stop hge
      have hsum := congrArg Text.byteLength hs
      simp only [Text.byteLength_append] at hsum
      rw [x.text_around hstop hs (by omega), hbehind, ← List.append_assoc x.new,
        ← List.append_assoc w]
      refine Text.slice_front ?_
      simp only [Text.byteLength_append]
      omega
  have hmoved : x.move.start o.start = o.start := by
    rw [x.move_start]
    exact x.stop_of_le (by omega)
  generalize s.stop = stop, s.unterminated = flag, s.children = children at *
  subst hclose
  simp only [close] at htext ⊢
  simp only [Span.move, Span.moveAll_eq_map, hmoved, ← htext]
  rfl

end Opening.Reaches

end DocCoverage
