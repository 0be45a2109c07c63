import DocCoverage.Proofs.Comments.Rewording
import DocCoverage.Proofs.Scan.Nesting

/-!
# Files with one comment replaced

Other text in place of a comment gives the moved tree, unless a class annotates a name up to the
comment: there the attribute of this name stands exactly if the comment goes on with an assignment,
so the old and the new comment have to agree in this.
-/
namespace DocCoverage

/-- A comment in its source. -/
structure Span.CommentIn (source : Text) (c : Span) (front behind : Text) : Prop where
  kind : c.kind = .comment
  source_eq : source = front ++ (c.text ++ behind)
  start_eq : c.start = Text.byteLength front
  stop_eq : c.stop = c.start + Text.byteLength c.text
  children_eq : c.children = []
  head : ∃ t, c.text = '#' :: t
  behind_head : behind.headD '\n' = '\n'
  even : behind ≠ [] → (c.text.reverse.takeWhile (· == '\\')).length % 2 = 0

section

variable {options : ScanOptions} {source new : Text} {tree c k : Span}

theorem Span.OpensIn.number {q : Span} {back t : Text} {k : SpanKind}
    (h : q.OpensIn source c back t k) (hkind : c.kind = .comment) : ∃ rest, t = '#' :: rest := by
  have hk : k = .comment := (h.kind_of_ne (by simp [hkind])).trans hkind
  have hopens := (RuleTable.dispatch_eq_some h.dispatch).2
  rw [hk] at hopens
  cases t with
  | nil => cases hopens
  | cons d rest =>
    have hcurrent := (Rule.opens_cons hopens).1
    obtain rfl : d = '#' := eq_of_beq hcurrent
    exact ⟨rest, rfl⟩

/-- A comment ends with its line, unless the line feed is escaped, or with the source. -/
theorem scan_comment (h : scan options source = .ok tree) (hc : c ∈ tree.preorder)
    (hkind : c.kind = .comment) : ∃ front behind, c.CommentIn source front behind := by
  have hbelow : c ∈ tree.descendants := by
    rcases List.mem_cons.mp hc with rfl | hc
    · rw [(file_stop h).1] at hkind
      cases hkind
    · exact hc
  obtain ⟨q, hq, hcq⟩ := Span.exists_parent hbelow
  obtain ⟨back, t, k, hopens⟩ := scan_opensIn h hq hcq
  obtain ⟨front, hsource, hstart⟩ := hopens.source_eq
  have hread := hopens.child
  obtain ⟨behind, ht⟩ := hread.text_eq
  simp only [Span.opening] at ht
  have hlt := hopens.parent.inside c hcq
  have hstop := hread.stop_eq
  have hhead : ∃ u, c.text = '#' :: u := by
    obtain ⟨rest, hrest⟩ := hopens.number hkind
    cases hu : c.text with
    | nil =>
      rw [hu] at hstop
      simp only [Text.byteLength_nil] at hstop
      omega
    | cons d u =>
      rw [hu, hrest] at ht
      exact ⟨u, by rw [(List.cons.inj ht).1]⟩
  have hend : behind.headD '\n' = '\n' ∧
      (behind ≠ [] → (c.text.reverse.takeWhile (· == '\\')).length % 2 = 0) := by
    rw [ht] at hread
    rcases hread.behind_cases (by rw [hkind]; rfl) with rfl | hcloses | ⟨hdecorator, -⟩
    · exact ⟨rfl, fun hne => absurd rfl hne⟩
    · rw [hkind] at hcloses
      have hfires : (!Cursor.escaped ⟨c.text.reverse, behind⟩ &&
          Rule.starts (Rule.only '\n') behind) = true := hcloses
      rw [Bool.and_eq_true, Bool.not_eq_true'] at hfires
      obtain ⟨rest, rfl⟩ := Rule.starts_only hfires.2
      have hescaped := hfires.1
      simp only [Cursor.escaped, beq_eq_false_iff_ne] at hescaped
      exact ⟨rfl, fun _ => by omega⟩
    · rw [hkind] at hdecorator
      cases hdecorator
  refine ⟨front ++ back.reverse, behind, hkind, ?_, ?_, hstop, (hread.comment_eq hkind).2, hhead,
    hend.1, hend.2⟩
  · rw [hsource, ht, List.append_assoc]
  · rw [Text.byteLength_append, Text.byteLength_reverse, ← hstart, hopens.start_eq]

/-- Of a scanned file every span lies in front of a comment, around it, or behind it. -/
theorem scan_fits (x : Rewording) (h : scan options source = .ok tree)
    (hc : x.comment ∈ tree.preorder) : ∀ s ∈ tree.preorder, x.Fits s := by
  have hplaced := Rule.standard_regular.scan_placed h
  intro s hs
  have hbelow := fun d hd => hplaced d (Span.preorder_trans hd hs)
  constructor
  · rcases Opening.Placed.nested_or_disjoint hplaced x.comment hc s hs with hin | hin | hle | hle
    · obtain rfl : s = x.comment := by
        rcases Span.mem_preorder.mp hin with heq | ⟨d, hd, -⟩
        · exact heq
        · rw [x.children_eq] at hd
          cases hd
      exact Or.inr (Or.inl x.comment.self_mem_preorder)
    · exact Or.inr (Or.inl hin)
    · exact Or.inr (Or.inr hle)
    · exact Or.inl hle
  · intro hin
    exact ⟨Opening.Placed.start_le hbelow _ hin, Opening.Placed.stop_le hbelow _ hin⟩

/-- The comment is reworded in the tree too, where no class looks ahead to a difference. -/
theorem scan_reworded {x : Rewording} {front : Text} (hexpired : options.Untimed)
    (h : scan options source = .ok tree) (hc : x.comment ∈ tree.preorder)
    (hsource : source = front ++ (x.comment.text ++ x.behind))
    (hstart : x.comment.start = Text.byteLength front)
    (hahead : ∀ k ∈ tree.preorder, k.AnnotatesUpTo x.comment →
      Rule.assignsLater x.new = Rule.assignsLater x.comment.text) :
    scan options (Text.splice x.comment.start (Text.byteLength x.comment.text) x.new source) =
      .ok (tree.move x.move) := by
  have hfits := scan_fits x h hc
  obtain ⟨consumed, h⟩ := RuleTable.scan_eq_ok_iff.mp h
  have hreaches : (⟨.file, 0, 0, source⟩ : Opening).Reaches x front :=
    ⟨hsource, by rw [hstart, Nat.zero_add], Nat.zero_le _⟩
  obtain ⟨s', hs', hspan⟩ :=
    spansReword hexpired _ _ _ h hreaches fun s hs => ⟨hfits s hs, hahead s hs⟩
  refine RuleTable.scan_eq_ok_iff.mpr ⟨s'.consumed, ?_⟩
  rw [← hspan]
  exact hs'

/-! ## The attribute in front of the comment -/

theorem Rewording.covers_move (x : Rewording) {q : Span} (hfit : x.Fits q)
    (hlt : q.start < q.stop) {p : Nat} (hp : p < x.comment.start) :
    (q.move x.move).start ≤ p ∧ p < (q.move x.move).stop ↔ q.start ≤ p ∧ p < q.stop := by
  have hcomment := x.start_lt_stop
  rw [Span.move_start, Span.move_stop, x.move_start]
  rcases hfit.cases with hle | hin | hge
  · rw [x.stop_of_le hle, x.stop_of_le (by omega)]
  · have haround := hfit.around hin
    have hmoved := x.rigid.stop q.stop haround.2
    rw [x.stop_of_le haround.1]
    omega
  · have hmoved := x.rigid.stop q.start hge
    omega

namespace Span.Annotates

variable {front behind back u : Text} {d : Char}

theorem nonWord (h : k.Annotates c back d u) : Rule.nonWord (back.headD '\n') = true := by
  have hhead := h.head
  cases back with
  | nil => rfl
  | cons e back =>
    by_cases he : e = '\n'
    · rw [he]
      rfl
    · simp only [Cursor.atLineHead, List.takeWhile_cons, bne_iff_ne, ne_eq, he, not_false_eq_true,
        if_true, List.all_cons, Bool.and_eq_true, beq_iff_eq] at hhead
      rw [hhead.1]
      rfl

/-- The attribute stands exactly if the comment goes on with an assignment. -/
theorem covered_iff (h : scan options source = .ok tree) (hk : k ∈ tree.preorder)
    (hc : c.CommentIn source front behind) (ha : k.Annotates c back d u) :
    Covered k.children (k.start + Text.byteLength back) ↔ Rule.assignsLater c.text = true := by
  obtain ⟨front', t, ht, hstart, hread⟩ := Rule.standard_regular.scan_placed h k hk
  simp only [Nat.zero_add] at ht hstart
  have hplace : Cursor.at? t (Text.byteLength back) =
      some ⟨back, d :: (u ++ (c.text ++ behind))⟩ := by
    have hsplit : front' ++ t = front ++ (c.text ++ behind) := ht.symm.trans hc.source_eq
    have hlen := hc.start_eq
    rw [ha.start] at hlen
    obtain ⟨m, hm, hbehind⟩ := Text.append_split_of_le hsplit (by omega)
    obtain ⟨rest, htext⟩ := ha.text
    obtain ⟨after, hafter⟩ := hread.text_eq
    have hsame : (back.reverse ++ d :: u) ++ (c.text ++ (rest ++ after)) =
        m ++ (c.text ++ behind) := by
      rw [← hbehind]
      simp only [Span.opening] at hafter
      rw [hafter, htext]
      simp
    have hsum := congrArg Text.byteLength hm
    rw [Text.byteLength_append] at hsum
    obtain ⟨rfl, -⟩ := Text.append_inj_of_byteLength hsame (by omega)
    exact Cursor.at?_eq_some_iff.mpr ⟨by rw [hbehind]; simp, rfl⟩
  have hopens : (Rule.standard .classAttribute).opens ⟨back, d :: (u ++ (c.text ++ behind))⟩ =
      Rule.assignsLater c.text := by
    obtain ⟨v, hv⟩ := hc.head
    have hlater := Rule.assignsLater_append hc.behind_head c.text
    have hhead : Cursor.atLineHead ⟨back, d :: (u ++ (c.text ++ behind))⟩ = true := ha.head
    rw [Rule.classAttribute_opens, hhead, ha.name, ha.nonWord, Bool.and_true, Bool.true_and,
      Bool.true_and]
    rw [hv, List.cons_append] at hlater ⊢
    rw [Rule.assignment_of_annotated ha.annotated, hlater]
  constructor
  · rintro ⟨q, hq, hle, hlt⟩
    obtain ⟨hkind, hplaced⟩ := ha.bare q hq hle hlt
    obtain ⟨cur, j, hcur, hdispatch, hrefine⟩ := hread.opened q hq
    simp only [Span.opening] at hcur hdispatch hrefine
    rw [hplaced, Nat.add_sub_cancel_left, hplace] at hcur
    obtain rfl := Option.some.inj hcur
    rw [SpanKind.refine_of_ne (by rw [ha.kind]; decide)] at hrefine
    rw [← hopens, ← hkind, ← hrefine]
    exact (RuleTable.dispatch_eq_some hdispatch).2
  · intro hlater
    by_contra hbare
    have hquiet : (k.opening t).QuietUpTo Rule.standard k.children (k.stop - k.start) :=
      hread.quiet (by rw [Span.opening, ha.kind]; rfl)
    have hbehind : (k.opening t).width Rule.standard ≤ Text.byteLength back := by
      rw [Opening.width, Span.opening, ha.kind]
      exact Text.byteLength_pos ha.behind
    have hinside : Text.byteLength back < k.stop - k.start := by
      obtain ⟨rest, htext⟩ := ha.text
      have hsize := d.utf8Size_pos
      have hlen := congrArg Text.byteLength htext
      have hstop := hread.stop_eq
      simp only [Text.byteLength_append, Text.byteLength_reverse, Text.byteLength_cons] at hlen
      omega
    have hnone := (hquiet _ _ hbehind hinside hplace (List.cons_ne_nil _ _) hbare).1
    rw [Span.opening, ha.kind, Rule.dispatch_classDef, hopens, hlater] at hnone
    simp at hnone

variable {x : Rewording}

section

variable (hfits : ∀ q ∈ k.children, x.Fits q ∧ q.start < q.stop)
  (h : k.Annotates x.comment back d u)
include hfits h

theorem covered_move :
    Covered (k.move x.move).children ((k.move x.move).start + Text.byteLength back) ↔
      Covered k.children (k.start + Text.byteLength back) := by
  have hsize := d.utf8Size_pos
  have hplace := h.start
  rw [Text.byteLength_append, Text.byteLength_reverse, Text.byteLength_cons] at hplace
  rw [x.start_of_le (by omega), move_children]
  have hcovers := fun q hq => x.covers_move (hfits q hq).1 (hfits q hq).2
    (show k.start + Text.byteLength back < x.comment.start by omega)
  constructor
  · rintro ⟨q', hq', hcov⟩
    obtain ⟨q, hq, rfl⟩ := List.mem_map.mp hq'
    exact ⟨q, hq, (hcovers q hq).mp hcov⟩
  · rintro ⟨q, hq, hcov⟩
    exact ⟨q.move x.move, List.mem_map_of_mem hq, (hcovers q hq).mpr hcov⟩

/-- In the moved tree the class annotates the same name. -/
theorem move (hstop : k.stop = k.start + Text.byteLength k.text) :
    (k.move x.move).Annotates (x.comment.move x.move) back d u := by
  have hsize := d.utf8Size_pos
  have hplace := h.start
  rw [Text.byteLength_append, Text.byteLength_reverse, Text.byteLength_cons] at hplace
  have hstart := x.start_of_le (show k.start ≤ x.comment.start by omega)
  refine ⟨(move_kind _ _).trans h.kind, h.behind, ?_, ?_, h.name, h.head, h.annotated, ?_⟩
  · obtain ⟨rest, htext⟩ := h.text
    have hassoc : ∀ v : Text, back.reverse ++ d :: (u ++ (v ++ rest)) =
        (back.reverse ++ d :: u) ++ (v ++ rest) := by
      intro v
      simp
    rw [hassoc] at htext
    exact ⟨rest, by rw [move_text, move_text, x.text_comment, hassoc,
      x.text_around hstop htext h.start]⟩
  · rw [x.start_of_le (Nat.le_refl _), hstart]
    exact h.start
  · intro q' hq'
    rw [move_children] at hq'
    obtain ⟨q, hq, rfl⟩ := List.mem_map.mp hq'
    rw [hstart]
    intro hle hlt
    obtain ⟨hfit, hne⟩ := hfits q hq
    have hcovers := (x.covers_move hfit hne (by omega)).mp ⟨hle, hlt⟩
    obtain ⟨hkind, hqstart⟩ := h.bare q hq hcovers.1 hcovers.2
    refine ⟨(move_kind _ _).trans hkind, ?_⟩
    rw [x.start_of_le (by omega), hqstart]

end

end Span.Annotates

/-- The moved tree is the tree of the file with the comment reworded exactly if no class looks
ahead to a difference. -/
theorem scan_reworded_iff {x : Rewording} {front : Text} (hexpired : options.Untimed)
    (h : scan options source = .ok tree) (hc : x.comment ∈ tree.preorder)
    (hcomment : x.comment.CommentIn source front x.behind) :
    scan options (Text.splice x.comment.start (Text.byteLength x.comment.text) x.new source) =
        .ok (tree.move x.move) ↔
      ((∃ k ∈ tree.preorder, k.AnnotatesUpTo x.comment) →
        Rule.assignsLater x.new = Rule.assignsLater x.comment.text) := by
  constructor
  · rintro hmoved ⟨k, hk, back, d, u, hannotates⟩
    have hk' : k.move x.move ∈ (tree.move x.move).preorder := by
      rw [Span.preorder_move]
      exact List.mem_map_of_mem hk
    have hc' : x.comment.move x.move ∈ (tree.move x.move).preorder := by
      rw [Span.preorder_move]
      exact List.mem_map_of_mem hc
    obtain ⟨front', behind', hcomment'⟩ :=
      scan_comment hmoved hc' ((Span.move_kind _ _).trans x.kind_eq)
    obtain ⟨_, _, _, _, hread⟩ := Rule.standard_regular.scan_placed h k hk
    have hfits : ∀ q ∈ k.children, x.Fits q ∧ q.start < q.stop := fun q hq =>
      ⟨scan_fits x h hc q (Span.preorder_trans (Span.child_mem_preorder hq) hk),
        (hread.inside q hq).2.1⟩
    have hold := hannotates.covered_iff h hk hcomment
    have hnew := (hannotates.move hfits hread.stop_eq).covered_iff hmoved hk' hcomment'
    rw [hannotates.covered_move hfits, hold, Span.move_text, x.text_comment] at hnew
    exact Bool.eq_iff_iff.mpr hnew.symm
  · intro hahead
    exact scan_reworded hexpired h hc hcomment.source_eq hcomment.start_eq fun k hk hannotates =>
      hahead ⟨k, hk, hannotates⟩

end

end DocCoverage
