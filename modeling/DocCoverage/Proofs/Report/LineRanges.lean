import DocCoverage.Proofs.Outline.Collapsing
import DocCoverage.Proofs.Report.Verdicts

/-!
# The lines of records

The line of an offset is one more than the line feeds before it: halving keeps all line feeds in
front of the part that is searched before the offset and none behind it. So lines grow with offsets,
and since the spans of definitions nest, so do the ranges of lines in their records.
-/
namespace DocCoverage

theorem countP_feedsFrom (n offset : Nat) (bs : Bytes) :
    (feedsFrom n bs).countP (· < offset) = (bs.take (offset - n)).count 0x0a := by
  induction bs generalizing n with
  | nil => simp [feedsFrom]
  | cons b bs ih =>
    by_cases hn : n < offset
    · have hsub : offset - n = (offset - (n + 1)) + 1 := by omega
      rw [hsub, List.take_succ_cons, List.count_cons, ← ih, feedsFrom]
      split
      · rw [List.countP_cons, if_pos (by simpa using hn)]
      · rfl
    · have hnone : (feedsFrom n (b :: bs)).countP (· < offset) = 0 := by
        refine List.countP_eq_zero.mpr fun m hm => ?_
        have hle := le_of_mem_feedsFrom hm
        simp only [decide_eq_true_eq]
        omega
      rw [hnone, show offset - n = 0 by omega]
      rfl

/-- When a predicate holds at the first places of a list and at no others, they are counted. -/
theorem countP_of_places {p : Nat → Bool} {xs : List Nat} {r : Nat}
    (h : ∀ i, xs[i]?.any p = true ↔ i < r) : xs.countP p = r := by
  induction xs generalizing r with
  | nil =>
    have hr := h 0
    simp only [List.getElem?_nil, Option.any_none, Bool.false_eq_true, false_iff] at hr
    rw [List.countP_nil]
    omega
  | cons x xs ih =>
    have hx := h 0
    have hxs : xs.countP p = r - 1 := ih fun i => (h (i + 1)).trans (by omega)
    simp only [List.getElem?_cons_zero, Option.any_some] at hx
    rw [List.countP_cons, hxs]
    split
    · have := hx.mp ‹_›
      omega
    · have := mt hx.mpr ‹_›
      omega

namespace LineIndex

variable {index : LineIndex} {offset : Nat}

theorem isBefore_of_le {i j : Nat} (hij : i ≤ j) (hj : index.isBefore offset j = true) :
    index.isBefore offset i = true := by
  obtain ⟨last, hlast, hlt⟩ := (Option.any_eq_true ..).mp hj
  obtain ⟨hsize, rfl⟩ := Array.getElem?_eq_some_iff.mp hlast
  have hi : i < index.feeds.size := by omega
  refine (Option.any_eq_true ..).mpr ⟨index.feeds[i], Array.getElem?_eq_getElem hi, ?_⟩
  rcases Nat.lt_or_eq_of_le hij with hlt' | rfl
  · have hinc := List.pairwise_iff_getElem.mp index.increasing i j (by simpa) (by simpa) hlt'
    simp only [Array.getElem_toList] at hinc
    simp only [decide_eq_true_eq] at hlt ⊢
    omega
  · exact hlt

/-- Halving finds where the line feeds before an offset end. -/
theorem isBefore_iff_of_bounds {first size : Nat}
    (hfront : ∀ i < first, index.isBefore offset i = true)
    (hbehind : ∀ i, first + size ≤ i → index.isBefore offset i = false) (i : Nat) :
    index.isBefore offset i = true ↔ i < index.countBefore offset first size := by
  induction size using Nat.strong_induction_on generalizing first with
  | h size ih =>
    rw [countBefore]
    split
    · have hless : size - size / 2 < size := by omega
      dsimp only
      split
      · rename_i hmiddle
        refine ih _ hless (fun j hj => isBefore_of_le (Nat.le_of_lt hj) hmiddle) fun j hj => ?_
        exact hbehind j (by omega)
      · rename_i hmiddle
        refine ih _ hless hfront fun j hj => ?_
        by_contra hbefore
        exact hmiddle (isBefore_of_le (by omega) (Bool.of_not_eq_false hbefore))
    · rename_i hsize
      have hplace : (0 < size && index.isBefore offset first) = index.isBefore offset first := by
        rcases Nat.eq_zero_or_pos size with rfl | hpos
        · rw [hbehind first (by omega), Bool.and_false]
        · rw [decide_eq_true hpos, Bool.true_and]
      rw [hplace]
      have hlast : ∀ j, first < j → index.isBefore offset j = false :=
        fun j hj => hbehind j (by omega)
      constructor
      · intro hi
        by_contra hge
        split at hge
        · rw [hlast i (by omega)] at hi
          cases hi
        · rename_i hfirst
          exact hfirst (isBefore_of_le (by omega) hi)
      · intro hi
        split at hi
        · rename_i hfirst
          exact isBefore_of_le (by omega) hfirst
        · exact hfront i hi

theorem line_eq (index : LineIndex) (offset : Nat) :
    index.line offset = index.feeds.toList.countP (· < offset) + 1 := by
  have hbehind : ∀ i, 0 + index.feeds.size ≤ i → index.isBefore offset i = false := by
    intro i hi
    rw [isBefore, Array.getElem?_eq_none (by omega), Option.any_none]
  have hplaces := isBefore_iff_of_bounds (fun i hi => absurd hi (Nat.not_lt_zero i)) hbehind
  rw [line, countP_of_places fun i => ?_]
  rw [Array.getElem?_toList]
  exact hplaces i

end LineIndex

theorem lineOf_eq (source : Text) (offset : Nat) :
    lineOf source offset = ((Utf8.encode source).take offset).count 0x0a + 1 := by
  rw [lineOf, LineIndex.line_eq, LineIndex.ofText, List.toList_toArray, countP_feedsFrom,
    Nat.sub_zero]

theorem lineOf_le {source : Text} {m n : Nat} (h : m ≤ n) : lineOf source m ≤ lineOf source n := by
  rw [lineOf_eq, lineOf_eq]
  exact Nat.add_le_add_right ((List.take_prefix_take_left h).sublist.count_le _) 1

/-- The node right above a reported node is reported too. -/
theorem Record.exists_reported_parent {collapse : Bool} {o d : Outline}
    (hd : d ∈ Record.reported collapse o) :
    d = o ∨ ∃ q ∈ Record.reported collapse o, d ∈ q.children := by
  induction o using Outline.tree_induction with
  | node o ih =>
    rw [Record.reported_eq, List.mem_cons] at hd
    refine hd.imp_right fun hbelow => ?_
    split at hbelow
    · cases hbelow
    · rename_i hshown
      rw [Record.reported_eq, if_neg hshown]
      obtain ⟨c, hc, hdc⟩ := List.mem_flatMap.mp hbelow
      rcases ih c hc hdc with rfl | ⟨q, hq, hdq⟩
      · exact ⟨o, List.mem_cons_self, hc⟩
      · exact ⟨q, List.mem_cons_of_mem o (List.mem_flatMap.mpr ⟨c, hc, hq⟩), hdq⟩

/-- The lines of a record are among those of another one. -/
def Record.LinesWithin (r q : Record) : Prop := q.startLine ≤ r.startLine ∧ r.endLine ≤ q.endLine

section

variable {gs : GrammarSet} {options : ScanOptions} {path source : Text} {a : Analysis}

theorem tree_text (h : analyze gs options path source = .ok a) : a.tree.text = source := by
  obtain ⟨tree, htree, rfl⟩ := analyze_eq_ok_iff.mp h
  obtain ⟨-, hstart, hstop⟩ := file_stop htree
  obtain ⟨before, after, hsource, hbefore, hlength⟩ :=
    Text.slice?_eq_some_iff.mp (divides_of_mem_preorder htree tree.self_mem_preorder).slice
  rw [hstart] at hbefore hlength
  obtain rfl := Text.byteLength_eq_zero.mp hbefore
  rw [hstop, hsource] at hlength
  simp only [List.nil_append, Text.byteLength_append] at hlength
  obtain rfl : after = [] := Text.byteLength_eq_zero.mp (by omega)
  simpa using hsource.symm

theorem kind_outline (h : analyze gs options path source = .ok a) : a.outline.kind = .file := by
  obtain ⟨houtline, hkind⟩ := analyze_outline h
  rw [houtline]
  exact hkind

/-- Only the node of an empty file is empty. -/
theorem start_lt_stop_of_mem_walk (h : analyze gs options path source = .ok a) {o : Outline}
    (ho : o ∈ a.outline.walk) : o.start < o.stop ∨ o = a.outline ∧ source = [] := by
  obtain ⟨tree, htree, rfl⟩ := analyze_eq_ok_iff.mp h
  rw [Outline.walk_ofSpan, List.mem_cons] at ho
  rcases ho with rfl | ho
  · obtain ⟨-, hstart, hstop⟩ := file_stop htree
    by_cases hsource : source = []
    · exact Or.inr ⟨rfl, hsource⟩
    · refine Or.inl ?_
      show tree.start < tree.stop
      rw [hstart, hstop]
      exact Text.byteLength_pos hsource
  · obtain ⟨d, hd, rfl⟩ := List.mem_map.mp ho
    exact Or.inl (Opening.Placed.start_lt_stop (Rule.standard_regular.scan_placed htree) d
      (List.mem_filter.mp hd).1)

/-- A record ends on the line of its last byte, or on its first line if the file is empty. -/
theorem endLine_recordOf (h : analyze gs options path source = .ok a) {o : Outline}
    (ho : o ∈ a.outline.walk) :
    o.start < o.stop ∧ (a.recordOf o).endLine = lineOf source (o.stop - 1) ∨
      source = [] ∧ o = a.outline ∧ (a.recordOf o).endLine = lineOf source o.start := by
  have hend : (a.recordOf o).endLine = lineOf source (max (o.stop - 1) o.start) := by
    rw [← tree_text h]
    rfl
  rw [hend]
  by_cases hspan : o.start < o.stop
  · exact Or.inl ⟨hspan, by rw [Nat.max_eq_left (by omega)]⟩
  · obtain ⟨hfile, hsource⟩ := (start_lt_stop_of_mem_walk h ho).resolve_left hspan
    exact Or.inr ⟨hsource, hfile, by rw [Nat.max_eq_right (by omega)]⟩

/-- What stands below a node stands on lines of the node. -/
theorem linesWithin_child (h : analyze gs options path source = .ok a) {o d : Outline}
    (ho : o ∈ a.outline.walk) (hd : d ∈ o.children) :
    (a.recordOf d).LinesWithin (a.recordOf o) := by
  obtain ⟨hdefinition, hstart, hstop⟩ := range_of_mem_children h ho hd
  refine ⟨lineOf_le hstart, lineOf_le ?_⟩
  show max (d.stop - 1) d.start ≤ max (o.stop - 1) o.start
  have hwalk := Outline.mem_walk_of_descendant (Outline.child_mem_descendants hd) ho
  rcases start_lt_stop_of_mem_walk h hwalk with hspan | ⟨rfl, -⟩
  · omega
  · rw [kind_outline h] at hdefinition
    cases hdefinition

/-- A line is numbered by the line feeds in the bytes before it. In a full and in a collapsed report
every record runs from the line of its first byte to that of its last byte, and the record of a
definition stays within the lines of the record right above it. -/
theorem record_lines (source : Text) :
    (∀ offset, lineOf source offset = ((Utf8.encode source).take offset).count 0x0a + 1) ∧
    ∀ gs options path a, analyze gs options path source = .ok a → ∀ collapse,
      a.records collapse = (Record.reported collapse a.outline).map a.recordOf ∧
      (∀ r ∈ a.records collapse,
        r.startLine = lineOf source r.start ∧ 1 ≤ r.startLine ∧ r.startLine ≤ r.endLine ∧
          (r.start < r.stop ∧ r.endLine = lineOf source (r.stop - 1) ∨
            source = [] ∧ r.kind = .file ∧ r.endLine = lineOf source r.start)) ∧
      (∀ d ∈ Record.reported collapse a.outline, d.kind.isDefinition = true →
        ∃ o ∈ Record.reported collapse a.outline, d ∈ o.children) ∧
      ∀ o ∈ a.outline.walk, ∀ d ∈ o.children, (a.recordOf d).LinesWithin (a.recordOf o) := by
  refine ⟨lineOf_eq source, fun gs options path a h collapse => ⟨rfl, ?_, ?_, ?_⟩⟩
  · intro r hr
    obtain ⟨o, ho, rfl⟩ := List.mem_map.mp hr
    have hwalk := Record.reported_subset collapse a.outline o ho
    have hline : (a.recordOf o).startLine = lineOf source o.start := by
      rw [← tree_text h]
      rfl
    refine ⟨hline, ?_, lineOf_le (Nat.le_max_right ..), ?_⟩
    · show 1 ≤ (a.recordOf o).startLine
      rw [hline, lineOf_eq]
      exact Nat.le_add_left 1 _
    · refine (endLine_recordOf h hwalk).imp_right fun hempty => ?_
      obtain ⟨hsource, hfile, hend⟩ := hempty
      exact ⟨hsource, hfile ▸ kind_outline h, hend⟩
  · intro d hd hdefinition
    refine (Record.exists_reported_parent hd).resolve_left ?_
    rintro rfl
    rw [kind_outline h] at hdefinition
    cases hdefinition
  · exact fun o ho d hd => linesWithin_child h ho hd

/-- A function with a nested one on its last lines, behind a character of two bytes; the source ends
without a line feed. -/
def accentedSource : Text := "# é\ndef f():\n\n    def g():\n        pass"

/-- The ranges of lines are nested though all three end at the end of the source. -/
theorem record_lines_accented : ∃ a,
    analyze ⟨.standard, .standard, .standard⟩ {} "m.py" accentedSource = .ok a ∧
      (a.records false).map (fun r => (r.start, r.stop, r.startLine, r.endLine)) =
        [(0, 40, 1, 5), (5, 40, 2, 5), (19, 40, 4, 5)] ∧
      ∀ o ∈ a.outline.walk, ∀ d ∈ o.children, (a.recordOf d).LinesWithin (a.recordOf o) := by
  have htest : (analyze ⟨.standard, .standard, .standard⟩ {} "m.py" accentedSource).toOption.any
      (fun a => (a.records false).map (fun r => (r.start, r.stop, r.startLine, r.endLine)) ==
        [(0, 40, 1, 5), (5, 40, 2, 5), (19, 40, 4, 5)]) = true := by decide +kernel
  obtain ⟨a, ha, htest⟩ := analyze_ok_of_any htest
  obtain ⟨-, hrecords⟩ := record_lines accentedSource
  obtain ⟨-, -, -, hwithin⟩ := hrecords _ _ _ a ha false
  exact ⟨a, ha, eq_of_beq htest, hwithin⟩

end

end DocCoverage
