import DocCoverage.Proofs.Text.Split
import DocCoverage.Text.Normalize
import Mathlib.Data.List.Infix

/-!
# Normal texts

Both parts of normalising work line by line: a line ends without the last of its carriage returns,
and its tabs reach up to the next tab stop. So a text with other line ends has the same normal form,
and a normal text is its own normal form. The exception are two carriage returns in front of a line
feed, of which one is left.
-/
namespace DocCoverage.Text

section

variable {sep : Char}

theorem joinWith_eq_ended (pieces : List Text) (last : Text) :
    joinWith [sep] (pieces ++ [last]) = ended sep pieces ++ last := by
  induction pieces with
  | nil => rfl
  | cons p pieces ih =>
    obtain ⟨q, qs, hqs⟩ := List.exists_cons_of_ne_nil (l := pieces ++ [last]) (by simp)
    rw [ended_cons, List.cons_append, List.append_assoc, List.cons_append, ← ih, hqs]
    simp [joinWith]

theorem ended_inj {ps qs : List Text} {l m : Text} (hps : ∀ p ∈ ps, sep ∉ p) (hl : sep ∉ l)
    (hqs : ∀ q ∈ qs, sep ∉ q) (hm : sep ∉ m) :
    ended sep ps ++ l = ended sep qs ++ m ↔ ps = qs ∧ l = m := by
  constructor
  · intro h
    have hpieces := splitOn_ended hps hl
    rw [h, splitOn_ended hqs hm] at hpieces
    obtain ⟨rfl, hlast⟩ := List.append_inj' hpieces rfl
    exact ⟨rfl, (List.singleton_inj.mp hlast).symm⟩
  · rintro ⟨rfl, rfl⟩
    rfl

/-- A text stands in front of a separator if and only if a piece ends with it. -/
theorem infix_ended_iff {w last : Text} {pieces : List Text} (hw : sep ∉ w)
    (hpieces : ∀ p ∈ pieces, sep ∉ p) (hlast : sep ∉ last) :
    w ++ [sep] <:+: ended sep pieces ++ last ↔ ∃ p ∈ pieces, w <:+ p := by
  constructor
  · rintro ⟨x, y, hxy⟩
    obtain ⟨qs, l, rfl, hqs, hl⟩ := exists_ended sep x
    obtain ⟨rs, m, rfl, hrs, hm⟩ := exists_ended sep y
    have hall : ∀ q ∈ qs ++ (l ++ w) :: rs, sep ∉ q := by
      intro q hq
      rcases List.mem_append.mp hq with hq | hq
      · exact hqs q hq
      · rcases List.mem_cons.mp hq with rfl | hq
        · simp [hl, hw]
        · exact hrs q hq
    have htext : ended sep (qs ++ (l ++ w) :: rs) ++ m = ended sep pieces ++ last := by
      rw [← hxy, ended_append, ended_cons]
      simp
    obtain ⟨rfl, -⟩ := (ended_inj hall hm hpieces hlast).mp htext
    exact ⟨l ++ w, by simp, List.suffix_append l w⟩
  · rintro ⟨p, hp, v, rfl⟩
    obtain ⟨before, behind, rfl⟩ := List.append_of_mem hp
    refine ⟨ended sep before ++ v, ended sep behind ++ last, ?_⟩
    rw [ended_append, ended_cons]
    simp

end

/-! ## Tab stops -/

section

variable {m n : Nat} {c : Char} {a b t : Text}

theorem expandFrom_append (n : Nat) (a b : Text) :
    expandFrom n (a ++ b) = expandFrom n a ++ expandFrom (n + (expandFrom n a).length) b := by
  induction a generalizing n with
  | nil => rfl
  | cons c a ih =>
    simp only [List.cons_append, expandFrom]
    split
    · rw [ih, List.append_assoc, List.length_append, List.length_replicate, Nat.add_assoc]
    · rw [ih, List.cons_append, List.length_cons, Nat.add_assoc, Nat.add_comm 1]

/-- Only the place between two tab stops counts. -/
theorem expandFrom_congr (h : m % tabWidth = n % tabWidth) (t : Text) :
    expandFrom m t = expandFrom n t := by
  have hadd : ∀ {m n : Nat} (k : Nat), m % tabWidth = n % tabWidth →
      (m + k) % tabWidth = (n + k) % tabWidth := by
    intro m n k h
    rw [Nat.add_mod, h, ← Nat.add_mod]
  induction t generalizing m n with
  | nil => rfl
  | cons c t ih =>
    simp only [expandFrom, h]
    split
    · exact congrArg _ (ih (hadd _ h))
    · exact congrArg _ (ih (hadd _ h))

/-- A tab reaches up to the next tab stop, and behind it a line begins anew. -/
theorem expandTabs_tab (a b : Text) :
    expandTabs (a ++ '\t' :: b) =
      expandTabs a ++ List.replicate (tabWidth - (expandTabs a).length % tabWidth) ' ' ++
        expandTabs b := by
  have hstop : ∀ k, (k + (tabWidth - k % tabWidth)) % tabWidth = 0 % tabWidth := by
    intro k
    simp only [tabWidth]
    omega
  rw [expandTabs, expandFrom_append, List.append_assoc]
  simp only [expandFrom, beq_self_eq_true, if_true, Nat.zero_add]
  rw [expandFrom_congr (hstop _)]
  rfl

theorem expandFrom_eq_self (h : '\t' ∉ t) (n : Nat) : expandFrom n t = t := by
  induction t generalizing n with
  | nil => rfl
  | cons c t ih =>
    have hc : c ≠ '\t' := (List.ne_of_not_mem_cons h).symm
    rw [expandFrom, if_neg (by simpa using hc), ih (List.not_mem_of_not_mem_cons h)]

theorem tab_notMem_expandFrom (n : Nat) (t : Text) : '\t' ∉ expandFrom n t := by
  induction t generalizing n with
  | nil => exact List.not_mem_nil
  | cons c t ih =>
    rw [expandFrom]
    split
    · simp [ih]
    · rename_i hc
      exact List.not_mem_cons_of_ne_of_not_mem (fun h => hc (beq_iff_eq.mpr h.symm)) (ih _)

theorem expandTabs_expandTabs (t : Text) : expandTabs (expandTabs t) = expandTabs t :=
  expandFrom_eq_self (tab_notMem_expandFrom 0 t) 0

theorem mem_of_mem_expandFrom (hc : c ≠ ' ') (h : c ∈ expandFrom n t) : c ∈ t := by
  induction t generalizing n with
  | nil => exact h
  | cons d t ih =>
    rw [expandFrom] at h
    split at h
    · rcases List.mem_append.mp h with h | h
      · exact absurd (List.eq_of_mem_replicate h) hc
      · exact List.mem_cons_of_mem d (ih h)
    · exact (List.mem_cons.mp h).elim (fun h => h ▸ List.mem_cons_self)
        fun h => List.mem_cons_of_mem d (ih h)

end

/-! ## Line ends -/

/-- The line without a carriage return at its end. -/
def dropReturn (line : Text) : Text :=
  if line.getLast? = some '\r' then line.dropLast else line

section

variable {c : Char} {p last t : Text} {pieces : List Text}

theorem dropReturn_concat (p : Text) : dropReturn (p ++ ['\r']) = p := by simp [dropReturn]

theorem dropReturn_eq_self (h : ¬['\r'] <:+ p) : dropReturn p = p := by
  refine if_neg fun hlast => h ?_
  obtain ⟨front, rfl⟩ := List.getLast?_eq_some_iff.mp hlast
  exact List.suffix_append front _

theorem dropReturn_eq_self_iff : dropReturn p = p ↔ ¬['\r'] <:+ p := by
  refine ⟨?_, dropReturn_eq_self⟩
  rintro h ⟨front, rfl⟩
  rw [dropReturn_concat] at h
  simpa using congrArg List.length h

theorem mem_of_mem_dropReturn (h : c ∈ dropReturn p) : c ∈ p := by
  unfold dropReturn at h
  split at h
  · exact List.mem_of_mem_dropLast h
  · exact h

/-- What is left of a line ends with a carriage return if the line ended with two of them. -/
theorem return_suffix_dropReturn_iff : ['\r'] <:+ dropReturn p ↔ ['\r', '\r'] <:+ p := by
  by_cases h : ['\r'] <:+ p
  · obtain ⟨front, rfl⟩ := h
    have htwo : (['\r', '\r'] : Text) = ['\r'] ++ ['\r'] := rfl
    rw [dropReturn_concat, htwo, List.suffix_append_self_iff]
  · rw [dropReturn_eq_self h]
    exact iff_of_false h fun htwo => h ((List.suffix_cons '\r' _).trans htwo)

theorem return_suffix_expandTabs_iff : ['\r'] <:+ expandTabs p ↔ ['\r'] <:+ p := by
  rcases List.eq_nil_or_concat' p with rfl | ⟨front, c, rfl⟩
  · rfl
  · by_cases hc : c = '\t'
    · subst hc
      -- a tab leaves at least one blank
      have hpad : tabWidth - (expandTabs front).length % tabWidth ≠ 0 :=
        (Nat.sub_pos_of_lt (Nat.mod_lt _ (by decide))).ne'
      obtain ⟨k, hk⟩ := Nat.exists_eq_succ_of_ne_zero hpad
      have hnil : expandTabs [] = [] := rfl
      rw [expandTabs_tab, hk, hnil, List.append_nil, List.replicate_succ', ← List.append_assoc]
      simp only [List.singleton_suffix_append_singleton_iff]
      decide
    · rw [expandTabs, expandFrom_append]
      simp [expandFrom, hc]

theorem unixLines_append (h : '\n' ∉ p) (t : Text) :
    unixLines (p ++ '\n' :: t) = dropReturn p ++ '\n' :: unixLines t := by
  induction p with
  | nil => rfl
  | cons c p ih =>
    have hp := List.not_mem_of_not_mem_cons h
    cases p with
    | nil =>
      by_cases hc : c = '\r'
      · subst hc
        rfl
      · rw [List.cons_append, unixLines, List.nil_append]
        · have : dropReturn [c] = [c] := by simp [dropReturn, hc]
          rw [this]
          rfl
        · exact fun _ hr => absurd hr hc
    | cons d p =>
      have hd : '\n' ≠ d := List.ne_of_not_mem_cons hp
      have hline : dropReturn (c :: d :: p) = c :: dropReturn (d :: p) := by
        simp only [dropReturn, List.getLast?_cons_cons]
        split <;> rfl
      rw [List.cons_append, unixLines, ih hp, hline, List.cons_append]
      intro _ u hu
      exact hd (List.cons.inj hu).1.symm

theorem unixLines_eq_self (h : '\n' ∉ t) : unixLines t = t := by
  induction t with
  | nil => rfl
  | cons c t ih =>
    have ht := List.not_mem_of_not_mem_cons h
    rw [unixLines, ih ht]
    rintro _ u rfl
    exact ht List.mem_cons_self

theorem unixLines_ended (h : ∀ p ∈ pieces, '\n' ∉ p) (hlast : '\n' ∉ last) :
    unixLines (ended '\n' pieces ++ last) = ended '\n' (pieces.map dropReturn) ++ last := by
  induction pieces with
  | nil => exact unixLines_eq_self hlast
  | cons p pieces ih =>
    rw [ended_cons, List.append_assoc, List.cons_append,
      unixLines_append (h p List.mem_cons_self),
      ih fun q hq => h q (List.mem_cons_of_mem p hq), List.map_cons, ended_cons, List.append_assoc,
      List.cons_append]

/-- The normal form of a line. -/
def normalLine (line : Text) : Text := expandTabs (dropReturn line)

theorem notMem_normalLines (h : ∀ p ∈ pieces, '\n' ∉ p) :
    ∀ p ∈ pieces.map normalLine, '\n' ∉ p := by
  intro p hp hmem
  obtain ⟨q, hq, rfl⟩ := List.mem_map.mp hp
  exact h q hq (mem_of_mem_dropReturn (mem_of_mem_expandFrom (by decide) hmem))

theorem return_suffix_normalLine_iff : ['\r'] <:+ normalLine p ↔ ['\r', '\r'] <:+ p := by
  rw [normalLine, return_suffix_expandTabs_iff, return_suffix_dropReturn_iff]

/-- A line in normal form is its own normal form unless it still ends with a carriage return. -/
theorem normalLine_normalLine_iff :
    normalLine (normalLine p) = normalLine p ↔ ¬['\r', '\r'] <:+ p := by
  have hkept : normalLine (normalLine p) = dropReturn (normalLine p) :=
    expandFrom_eq_self (fun h => tab_notMem_expandFrom _ _ (mem_of_mem_dropReturn h)) 0
  rw [hkept, dropReturn_eq_self_iff, return_suffix_normalLine_iff]

theorem normalLine_eq_self (ht : '\t' ∉ p) (hr : '\r' ∉ p) : normalLine p = p := by
  have hkept : dropReturn p = p := dropReturn_eq_self fun h => hr (h.subset List.mem_cons_self)
  rw [normalLine, hkept]
  exact expandFrom_eq_self ht 0

/-- Normalising puts each line into normal form, whether or not there is anything to change. -/
theorem normalize_ended (h : ∀ p ∈ pieces, '\n' ∉ p) (hlast : '\n' ∉ last) :
    normalize (ended '\n' pieces ++ last) =
      ended '\n' (pieces.map normalLine) ++ expandTabs last := by
  have hdropped : ∀ p ∈ pieces.map dropReturn, '\n' ∉ p := by
    intro p hp hmem
    obtain ⟨q, hq, rfl⟩ := List.mem_map.mp hp
    exact h q hq (mem_of_mem_dropReturn hmem)
  unfold normalize
  split
  · rw [unixLines_ended h hlast, splitOn_ended hdropped hlast, List.map_append, List.map_map]
    exact joinWith_eq_ended _ _
  · rename_i hplain
    simp only [Bool.or_eq_true, List.contains_iff_mem, not_or] at hplain
    obtain ⟨htab, hreturn⟩ := hplain
    have hpiece : ∀ c, c ∉ ended '\n' pieces ++ last → ∀ p ∈ pieces, c ∉ p := fun c hc p hp hmem =>
      hc (List.mem_append_left _ (List.mem_flatMap.mpr ⟨p, hp, List.mem_append_left _ hmem⟩))
    have hsame : pieces.map normalLine = pieces.map id := List.map_congr_left fun p hp =>
      normalLine_eq_self (hpiece _ htab p hp) (hpiece _ hreturn p hp)
    have hend : expandFrom 0 last = last :=
      expandFrom_eq_self (fun hmem => htab (List.mem_append_right _ hmem)) 0
    rw [hsame, List.map_id, expandTabs, hend]

/-- The text with a carriage return in front of every line feed. -/
def withReturns (t : Text) : Text := t.flatMap fun c => if c == '\n' then ['\r', '\n'] else [c]

theorem withReturns_eq_self (h : '\n' ∉ t) : withReturns t = t := by
  induction t with
  | nil => rfl
  | cons c t ih =>
    have hc : c ≠ '\n' := (List.ne_of_not_mem_cons h).symm
    have ht := ih (List.not_mem_of_not_mem_cons h)
    rw [withReturns] at ht
    rw [withReturns, List.flatMap_cons, if_neg (by simpa using hc), ht, List.singleton_append]

theorem withReturns_ended (h : ∀ p ∈ pieces, '\n' ∉ p) (hlast : '\n' ∉ last) :
    withReturns (ended '\n' pieces ++ last) = ended '\n' (pieces.map (· ++ ['\r'])) ++ last := by
  induction pieces with
  | nil => exact withReturns_eq_self hlast
  | cons p pieces ih =>
    have hp := withReturns_eq_self (h p List.mem_cons_self)
    have hrest := ih fun q hq => h q (List.mem_cons_of_mem p hq)
    simp only [withReturns] at hp hrest
    simp only [withReturns, ended_cons, List.append_assoc, List.flatMap_append, List.cons_append,
      List.flatMap_cons, hp, List.map_cons]
    simp [← hrest]

end

section

variable {t : Text}

/-- A normal text has no tab. A carriage return stands in front of one of its line feeds exactly if
two stood there in the text before, and then it is not its own normal form. -/
theorem normalize_normalize_iff (t : Text) :
    '\t' ∉ normalize t ∧
    (("\r\n" : Text) <:+: normalize t ↔ ("\r\r\n" : Text) <:+: t) ∧
    (normalize (normalize t) = normalize t ↔ ¬("\r\r\n" : Text) <:+: t) := by
  obtain ⟨pieces, last, rfl, hpieces, hlast⟩ := exists_ended '\n' t
  have hnormal := notMem_normalLines hpieces
  have hend : '\n' ∉ expandTabs last := fun hmem =>
    hlast (mem_of_mem_expandFrom (by decide) hmem)
  have htwo : ("\r\r\n" : Text) <:+: ended '\n' pieces ++ last ↔
      ∃ p ∈ pieces, ['\r', '\r'] <:+ p :=
    infix_ended_iff (w := ['\r', '\r']) (by decide) hpieces hlast
  rw [htwo, normalize_ended hpieces hlast]
  refine ⟨?_, ?_, ?_⟩
  · rw [List.mem_append, not_or]
    refine ⟨fun hmem => ?_, tab_notMem_expandFrom 0 last⟩
    obtain ⟨p, hp, hmem⟩ := List.mem_flatMap.mp hmem
    obtain ⟨q, -, rfl⟩ := List.mem_map.mp hp
    refine (List.mem_append.mp hmem).elim (tab_notMem_expandFrom 0 _) (by simp)
  · calc ("\r\n" : Text) <:+: ended '\n' (pieces.map normalLine) ++ expandTabs last
      _ ↔ ∃ p ∈ pieces.map normalLine, ['\r'] <:+ p :=
        infix_ended_iff (w := ['\r']) (by decide) hnormal hend
      _ ↔ ∃ p ∈ pieces, ['\r', '\r'] <:+ p := by
        simp only [List.mem_map, exists_exists_and_eq_and, return_suffix_normalLine_iff]
  · rw [normalize_ended hnormal hend, expandTabs_expandTabs,
      ended_inj (notMem_normalLines hnormal) hend hnormal hend, List.map_map]
    simp only [and_true, List.map_inj_left, Function.comp_apply, normalLine_normalLine_iff,
      not_exists, not_and]

/-- Of two carriage returns one is left, which a second time is dropped too. -/
theorem normalize_two_returns :
    ("\r\n" : Text) <:+: normalize "\r\r\n" ∧
      normalize (normalize "\r\r\n") ≠ normalize "\r\r\n" := by decide

/-- Behind a tab stop a line begins anew, and only lines with tabs change. A text without carriage
returns is normalised line by line, and in the same way when all its lines end with one. -/
theorem normalize_lines :
    (∀ a b, expandTabs (a ++ '\t' :: b) =
      expandTabs a ++ List.replicate (4 - (expandTabs a).length % 4) ' ' ++ expandTabs b) ∧
    (∀ t, expandTabs t = t ↔ '\t' ∉ t) ∧
    ∀ t, '\r' ∉ t → normalize (withReturns t) = normalize t ∧
      normalize t = joinWith "\n" ((splitOn '\n' t).map expandTabs) := by
  refine ⟨expandTabs_tab, fun t => ⟨fun h => ?_, fun h => expandFrom_eq_self h 0⟩, fun t h => ?_⟩
  · rw [← h]
    exact tab_notMem_expandFrom 0 t
  · obtain ⟨pieces, last, rfl, hpieces, hlast⟩ := exists_ended '\n' t
    have hplain : ∀ p ∈ pieces, dropReturn p = p := fun p hp => dropReturn_eq_self fun hsuffix =>
      h (List.mem_append_left _ (List.mem_flatMap.mpr
        ⟨p, hp, List.mem_append_left _ (hsuffix.subset List.mem_cons_self)⟩))
    have hnormal : pieces.map normalLine = pieces.map expandTabs :=
      List.map_congr_left fun p hp => by rw [normalLine, hplain p hp]
    have hreturns : (pieces.map (· ++ ['\r'])).map normalLine = pieces.map expandTabs := by
      rw [List.map_map]
      exact List.map_congr_left fun p _ => congrArg expandTabs (dropReturn_concat p)
    have hlines : ∀ p ∈ pieces.map (· ++ ['\r']), '\n' ∉ p := by
      intro p hp
      obtain ⟨q, hq, rfl⟩ := List.mem_map.mp hp
      simp [hpieces q hq]
    rw [withReturns_ended hpieces hlast, normalize_ended hlines hlast, hreturns,
      normalize_ended hpieces hlast, hnormal, splitOn_ended hpieces hlast, List.map_append]
    exact ⟨rfl, (joinWith_eq_ended _ _).symm⟩

/-- Tabs behind wide characters and behind other tabs, with and without a last line end. -/
theorem normalize_lines_wide :
    '\r' ∉ ("é\tx\n\t\ty" : Text) ∧ normalize (withReturns "é\tx\n\t\ty") = "é   x\n        y" ∧
      expandTabs "ab\tc" = "ab  c" ∧ expandTabs "abc" = "abc" := by
  obtain ⟨htab, hself, hlines⟩ := normalize_lines
  obtain ⟨hreturns, hnormal⟩ := hlines "é\tx\n\t\ty" (by decide)
  refine ⟨by decide, ?_, ?_, (hself "abc").mpr (by decide)⟩
  · rw [hreturns, hnormal]
    decide
  · exact htab "ab" "c"

end

end DocCoverage.Text
