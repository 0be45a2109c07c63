import DocCoverage.Json.Read
import DocCoverage.Proofs.Text.Decimal
import Mathlib.Data.List.TakeDrop
import Mathlib.Data.List.TakeWhile

/-!
# Reading JSON numbers

A written number is a numeral: digits, perhaps places behind a point, perhaps an exponent. What is
read of a numeral does not depend on the text behind it, as long as that text cannot continue the
number.
-/
namespace DocCoverage.Json

def continuesNumber (c : Char) : Bool := Text.isAsciiDigit c || c == '.' || c == 'e' || c == 'E'

/-- A number in front of the text ends there. -/
def Stops (rest : Text) : Prop := ∀ c ∈ rest.head?, continuesNumber c = false

structure Digits (t : Text) : Prop where
  ne_nil : t ≠ []
  all : ∀ c ∈ t, Text.isAsciiDigit c = true

/-- An exponent with its letter, if there is one. -/
inductive Exponent : Text → Prop where
  | none : Exponent []
  | plus {ds : Text} (h : Digits ds) : Exponent ('e' :: ds)
  | minus {ds : Text} (h : Digits ds) : Exponent ('e' :: '-' :: ds)

/-- What follows the integral part of a number. -/
inductive Places : Text → Prop where
  | integral {t : Text} (h : Exponent t) : Places t
  | point {ds t : Text} (hds : Digits ds) (h : Exponent t) : Places ('.' :: (ds ++ t))

/-- The text of a number without its sign. -/
inductive Numeral : Text → Prop where
  | intro {ds t : Text} (hds : Digits ds) (h : Places t) : Numeral (ds ++ t)

/-- What is read of the text does not depend on what stands behind it. -/
def Reads {α : Type} (read : Text → Reading (α × Text)) (t : Text) : Prop :=
  ∃ r : Reading α, ∀ rest, Stops rest → read (t ++ rest) = r.map fun x => (x, rest)

section

variable {t ds rest : Text} {negative : Bool} {s : Nat} {k : Int}

theorem stops_nil : Stops [] := fun _ h => nomatch h

theorem stops_cons {c : Char} (h : continuesNumber c = false) (t : Text) : Stops (c :: t) := by
  rintro d hd
  obtain rfl := Option.some.inj hd
  exact h

theorem Stops.not_digit (h : Stops rest) : ∀ c ∈ rest.head?, Text.isAsciiDigit c = false := by
  intro c hc
  have := h c hc
  simp only [continuesNumber, Bool.or_eq_false_iff] at this
  exact this.1.1.1

theorem digitsOf_append (h : ∀ c ∈ ds, Text.isAsciiDigit c = true)
    (hrest : ∀ c ∈ rest.head?, Text.isAsciiDigit c = false) :
    digitsOf (ds ++ rest) = (ds, rest) := by
  rw [digitsOf, List.span_eq_takeWhile_dropWhile, List.takeWhile_append_of_pos h,
    List.dropWhile_append_of_pos h]
  cases rest with
  | nil => simp
  | cons c rest =>
    have hc := hrest c rfl
    rw [List.takeWhile_cons_of_neg (by simp [hc]), List.dropWhile_cons_of_neg (by simp [hc]),
      List.append_nil]

/-- The number of a significand with an exponent that was read. -/
def withExponent (negative : Bool) (significand : Nat) (start : Int) (minus : Bool) (e : Nat) :
    Reading JsonNumber :=
  if 2147483647 < e then
    if significand != 0 && !minus then .error .malformed else .ok (.real negative .zero)
  else ofParts negative significand (clamp32 (if minus then start - e else start + e))

theorem bind_pure_pair {α : Type} (r : Reading α) (rest : Text) :
    (r >>= fun x => pure (x, rest)) = r.map fun x => (x, rest) := by
  cases r <;> rfl

theorem map_withExponent (minus : Bool) (e : Nat) (rest : Text) :
    (withExponent negative s k minus e).map (fun x => (x, rest)) =
      if 2147483647 < e then
        if s != 0 && !minus then .error .malformed else .ok (.real negative .zero, rest)
      else ofParts negative s (clamp32 (if minus then k - e else k + e)) >>=
        fun x => pure (x, rest) := by
  unfold withExponent
  split
  · split <;> rfl
  · exact (bind_pure_pair _ _).symm

theorem readExponent_signed (hds : Digits ds) (hrest : Stops rest) (minus : Bool) :
    readExponent negative s k ((if minus then ['-'] else []) ++ ds ++ rest) =
      (withExponent negative s k minus (ds.foldl (fun n d => n * 10 + digitValue d) 0)).map
        fun x => (x, rest) := by
  have hdigits := digitsOf_append hds.all hrest.not_digit
  obtain ⟨d, ds, rfl⟩ := List.exists_cons_of_ne_nil hds.ne_nil
  have hd := hds.all d List.mem_cons_self
  have hsign : ∀ c u, Text.isAsciiDigit c = false → d :: ds ++ rest = c :: u → False := by
    intro c u hc heq
    rw [(List.cons.inj heq).1, hc] at hd
    cases hd
  cases minus with
  | false =>
    have hplus := fun u => hsign '+' u rfl
    have hminus := fun u => hsign '-' u rfl
    rw [if_neg (by decide), List.nil_append, readExponent, hdigits, map_withExponent]
    · rfl
    · exact hplus
    · exact hminus
  | true =>
    rw [if_pos rfl, List.singleton_append, List.cons_append, readExponent, hdigits,
      map_withExponent]
    rfl

theorem readScale_exponent (negative : Bool) (s : Nat) (k : Int) (ht : Exponent t) :
    Reads (readScale negative s k) t := by
  cases ht with
  | none =>
    refine ⟨ofParts negative s k, fun rest hrest => ?_⟩
    rw [List.nil_append, readScale]
    · exact bind_pure_pair _ _
    · rintro u rfl
      cases hrest 'e' rfl
    · rintro u rfl
      cases hrest 'E' rfl
  | plus h =>
    exact ⟨_, fun rest hrest => readExponent_signed h hrest false⟩
  | minus h =>
    exact ⟨_, fun rest hrest => readExponent_signed h hrest true⟩

theorem Exponent.stops (ht : Exponent t) (hrest : Stops rest) :
    ∀ c ∈ (t ++ rest).head?, Text.isAsciiDigit c = false := by
  cases ht with
  | none => exact hrest.not_digit
  | plus | minus =>
    rintro c hc
    obtain rfl := Option.some.inj hc
    rfl

theorem Places.stops (ht : Places t) (hrest : Stops rest) :
    ∀ c ∈ (t ++ rest).head?, Text.isAsciiDigit c = false := by
  cases ht with
  | integral h => exact h.stops hrest
  | point =>
    rintro c hc
    obtain rfl := Option.some.inj hc
    rfl

theorem readFraction_places (negative : Bool) (s : Nat) (k : Int) (hds : Digits ds)
    (ht : Exponent t) : Reads (readFraction negative s k) (ds ++ t) := by
  obtain ⟨r, hr⟩ := readScale_exponent negative (takeDigits s 0 ds).1
    (k - (takeDigits s 0 ds).2.1) ht
  refine ⟨r, fun rest hrest => ?_⟩
  have hdigits := digitsOf_append hds.all (ht.stops hrest)
  obtain ⟨d, ds, rfl⟩ := List.exists_cons_of_ne_nil hds.ne_nil
  rw [List.append_assoc, readFraction, hdigits]
  exact hr rest hrest

/-- The number behind the digits of an integer that fits. -/
theorem readAfterInteger_places (negative : Bool) (s : Nat) (ht : Places t) :
    Reads (readAfterInteger negative s) t := by
  cases ht with
  | point hds h =>
    exact readFraction_places negative _ _ hds h
  | integral h =>
    cases h with
    | plus h => exact ⟨_, fun rest hrest => readExponent_signed h hrest false⟩
    | minus h => exact ⟨_, fun rest hrest => readExponent_signed h hrest true⟩
    | none =>
      refine ⟨if !negative then .ok (.nat s)
        else if s == 0 || Nat.pow 2 63 < s then ofParts true s 0
        else .ok (.negative s), fun rest hrest => ?_⟩
      rw [List.nil_append, readAfterInteger]
      · split
        · rfl
        · split
          · exact bind_pure_pair _ _
          · rfl
      · rintro u rfl
        cases hrest '.' rfl
      · rintro u rfl
        cases hrest 'e' rfl
      · rintro u rfl
        cases hrest 'E' rfl

theorem readNumber_zero (h : ∀ c ∈ t.head?, Text.isAsciiDigit c = false) :
    readNumber negative ('0' :: t) = readAfterInteger negative 0 t := by
  cases t with
  | nil => rfl
  | cons c t =>
    rw [readNumber]
    exact if_neg (by simp [h c rfl])

/-- What is read behind the digits of a number, some of which may be left. -/
def behindDigits (negative : Bool) (taken : Nat × Nat × Text) (t : Text) :
    Reading (JsonNumber × Text) :=
  match taken with
  | (significand, _, []) => readAfterInteger negative significand t
  | (significand, _, left) =>
    match t with
    | '.' :: t => readFraction negative significand left.length t
    | t => readScale negative significand left.length t

/-- A number that does not begin with a zero is made of its leading digits. -/
theorem readNumber_digits (hds : Digits ds) (hzero : ds.head? ≠ some '0')
    (hrest : ∀ c ∈ rest.head?, Text.isAsciiDigit c = false) :
    readNumber negative (ds ++ rest) = behindDigits negative (takeDigits 0 0 ds) rest := by
  obtain ⟨d, ds, rfl⟩ := List.exists_cons_of_ne_nil hds.ne_nil
  have hd := hds.all d List.mem_cons_self
  rw [List.cons_append, readNumber, if_neg (by simp [hd]), ← List.cons_append,
    digitsOf_append hds.all hrest]
  · rfl
  · rintro rfl
    exact hzero rfl

theorem behindDigits_places (negative : Bool) (taken : Nat × Nat × Text) (ht : Places t) :
    Reads (behindDigits negative taken) t := by
  obtain ⟨significand, count, _ | ⟨c, left⟩⟩ := taken
  · exact readAfterInteger_places negative significand ht
  cases ht with
  | point hds h => exact readFraction_places negative _ _ hds h
  | integral h =>
    obtain ⟨r, hr⟩ := readScale_exponent negative significand (c :: left).length h
    refine ⟨r, fun rest hrest => ?_⟩
    rw [← hr rest hrest]
    change (match t ++ rest with
      | '.' :: u => readFraction negative significand (c :: left).length u
      | u => readScale negative significand (c :: left).length u) = _
    split
    · -- an exponent does not begin with a point, nor does what follows the number
      rename_i u heq
      cases h with
      | none =>
        rw [List.nil_append] at heq
        subst heq
        cases hrest '.' rfl
      | plus | minus => cases (List.cons.inj heq).1
    · rfl

theorem readNumber_numeral (negative : Bool) (h : Numeral t) : Reads (readNumber negative) t := by
  obtain ⟨hds, ht⟩ := h
  rename_i ds t
  by_cases hzero : ds.head? = some '0'
  · obtain ⟨ds, rfl⟩ : ∃ es, ds = '0' :: es := by
      cases ds with
      | nil => cases hzero
      | cons c es => exact ⟨es, by rw [Option.some.inj hzero]⟩
    cases ds with
    | nil =>
      obtain ⟨r, hr⟩ := readAfterInteger_places negative 0 ht
      refine ⟨r, fun rest hrest => ?_⟩
      rw [List.append_assoc, List.singleton_append, readNumber_zero (ht.stops hrest)]
      exact hr rest hrest
    | cons c ds =>
      have hc := hds.all c (List.mem_cons_of_mem _ List.mem_cons_self)
      exact ⟨.error .malformed, fun rest hrest => if_pos hc⟩
  · obtain ⟨r, hr⟩ := behindDigits_places negative (takeDigits 0 0 ds) ht
    refine ⟨r, fun rest hrest => ?_⟩
    rw [List.append_assoc, readNumber_digits hds hzero (ht.stops hrest)]
    exact hr rest hrest

end

/-! ## Written numbers -/

section

variable {ds es t : Text}

theorem digits_ofNat (n : Nat) : Digits (Text.ofNat n) :=
  ⟨Nat.toDigits_ne_nil, fun _ => Text.isAsciiDigit_of_mem_ofNat⟩

theorem Digits.append (h : Digits ds) (hes : ∀ c ∈ es, Text.isAsciiDigit c = true) :
    Digits (ds ++ es) :=
  ⟨by simp [h.ne_nil], fun c hc => (List.mem_append.mp hc).elim (h.all c) (hes c)⟩

theorem Digits.take {n : Nat} (h : Digits ds) (hn : 0 < n) : Digits (ds.take n) :=
  ⟨by simp [h.ne_nil, hn.ne'], fun c hc => h.all c (List.mem_of_mem_take hc)⟩

theorem Digits.drop {n : Nat} (h : Digits ds) (hn : n < ds.length) : Digits (ds.drop n) :=
  ⟨by simpa using hn, fun c hc => h.all c (List.mem_of_mem_drop hc)⟩

theorem digit_of_mem_zeros {n : Nat} : ∀ c ∈ List.replicate n '0', Text.isAsciiDigit c = true := by
  intro c hc
  rw [List.eq_of_mem_replicate hc]
  rfl

theorem Digits.append_zeros (h : Digits ds) (n : Nat) : Digits (ds ++ List.replicate n '0') :=
  h.append digit_of_mem_zeros

theorem Digits.zeros_append (h : Digits ds) (n : Nat) : Digits (List.replicate n '0' ++ ds) :=
  ⟨by simp [h.ne_nil], fun c hc => (List.mem_append.mp hc).elim (digit_of_mem_zeros c) (h.all c)⟩

theorem numeral_digits (h : Digits ds) : Numeral ds := by
  simpa using Numeral.intro h (.integral .none)

theorem Numeral.head (h : Numeral t) : ∃ c u, t = c :: u ∧ Text.isAsciiDigit c = true := by
  obtain ⟨hds, -⟩ := h
  obtain ⟨d, ds, rfl⟩ := List.exists_cons_of_ne_nil hds.ne_nil
  exact ⟨d, _, rfl, hds.all d List.mem_cons_self⟩

theorem digits_zero : Digits ['0'] := ⟨List.cons_ne_nil _ _, List.forall_mem_singleton.mpr rfl⟩

theorem numeral_point (hds : Digits ds) (hes : Digits es) : Numeral (ds ++ ['.'] ++ es) := by
  simpa using Numeral.intro hds (.point hes .none)

theorem numeral_places (hds : Digits ds) (n : Nat) :
    Numeral (("0." : Text) ++ List.replicate n '0' ++ ds) := by
  simpa using numeral_point digits_zero (hds.zeros_append n)

theorem exponent_signed (e : Int) : Exponent ('e' :: if e < 0 then ['-'] ++ Text.ofNat (-e).toNat
    else Text.ofNat e.toNat) := by
  split
  · exact .minus (digits_ofNat _)
  · exact .plus (digits_ofNat _)

/-- The mantissa of a number with an exponent has at most one digit in front of the point. -/
theorem numeral_exponent (hds : Digits ds) (h : Exponent t) :
    Numeral ((if ds.length == 1 then ds else ds.take 1 ++ ['.'] ++ ds.drop 1) ++ t) := by
  have hpos := List.length_pos_iff.mpr hds.ne_nil
  split
  · exact .intro hds (.integral h)
  · rename_i hone
    have hlen : ds.length ≠ 1 := by simpa using hone
    simpa using Numeral.intro (hds.take (n := 1) Nat.one_pos)
      (.point (hds.drop (n := 1) (by omega)) h)

theorem numeral_text (x : Binary64) : Numeral x.text := by
  have hds := digits_ofNat x.shortest.digits
  unfold Binary64.text
  split
  · simpa using numeral_point digits_zero digits_zero
  dsimp only
  -- only that they are digits matters from here on
  generalize Text.ofNat x.shortest.digits = ds at hds ⊢
  generalize x.shortest.exponent = k
  split
  · simpa using numeral_point (hds.append_zeros _) digits_zero
  split
  · rename_i hlarge hplaces
    simp only [Bool.and_eq_true, decide_eq_true_eq] at hlarge hplaces
    simpa using numeral_point (hds.take (n := (ds.length + k).toNat) (by omega))
      (hds.drop (n := (ds.length + k).toNat) (by omega))
  split
  · exact numeral_places hds _
  · simpa using numeral_exponent hds (exponent_signed (ds.length + k - 1))

end

end DocCoverage.Json
