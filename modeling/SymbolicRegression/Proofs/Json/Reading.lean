import SymbolicRegression.Json.Value
import SymbolicRegression.Proofs.Decimal.Text
import SymbolicRegression.Proofs.Json.Datum
import SymbolicRegression.Proofs.Outcome

set_option autoImplicit false
set_option relaxedAutoImplicit false

/-!
# Written JSON is read back

Every value that is written is read back as the datum that it stands for, and nothing of what
follows it is taken. The text of a value is a single line.

## Main definitions

* `SymbolicRegression.Json.Value.datum` — what a value is read back as.

## Main results

* `SymbolicRegression.Json.readWhole_render` — a written value is read back.
* `SymbolicRegression.Json.newline_notMem_render` — the text of a value is a single line.
-/

namespace SymbolicRegression.Json

/-! ## Strings -/

/-- The digits of numbers below sixteen are read back. -/
lemma hexValue?_hexDigit : ∀ n < 16, hexValue? (hexDigit n) = some n := by decide

/-- An escaped control character is read back. -/
lemma escapedChar_control {c : Char} (hc : c.toNat < 0x20) (rest : List Char) :
    escapedChar ('0' :: '0' :: hexDigit (c.toNat / 16) :: hexDigit (c.toNat % 16) :: rest) =
      .ok (c, rest) := by
  have hhigh := hexValue?_hexDigit (c.toNat / 16) (by omega)
  have hlow := hexValue?_hexDigit (c.toNat % 16) (by omega)
  have hzero : hexValue? '0' = some 0 := rfl
  have hunit : codeUnit ('0' :: '0' :: hexDigit (c.toNat / 16) :: hexDigit (c.toNat % 16) :: rest) =
      .ok (c.toNat, rest) := by
    simp only [codeUnit, hzero, hhigh, hlow]
    congr 2
    omega
  rw [escapedChar, hunit]
  show (if 0xdc00 ≤ c.toNat ∧ c.toNat ≤ 0xdfff then _
    else if c.toNat < 0xd800 ∨ _ then _ else _) = _
  rw [if_neg (by omega), if_pos (.inl (by omega)), Char.ofNat_toNat]
  rfl

/-- **A written character is read back.** -/
lemma stringFrom_escape (fuel : Nat) (done : List Char) (c : Char) (rest : List Char) :
    stringFrom (fuel + 1) done (escape c ++ rest) = stringFrom fuel (c :: done) rest := by
  unfold escape
  split
  · subst_vars; rfl
  split
  · subst_vars; rfl
  split
  · subst_vars; rfl
  split
  · subst_vars; rfl
  split
  · subst_vars; rfl
  split
  · subst_vars; rfl
  split
  · subst_vars; rfl
  split
  · rename_i hc
    show (escapedChar ('0' :: '0' :: hexDigit (c.toNat / 16) :: hexDigit (c.toNat % 16) :: rest) >>=
      fun r => stringFrom fuel (r.1 :: done) r.2) = _
    rw [escapedChar_control hc]
    rfl
  · rename_i hquote hslash _ _ _ _ _ hc
    rw [List.singleton_append, stringFrom.eq_def]
    split <;> simp_all

/-- A string is not longer than what it is written as. -/
lemma length_le_length_escape (s : List Char) : s.length ≤ (s.flatMap escape).length := by
  induction s with
  | nil => exact le_rfl
  | cons c s ih =>
    have hc : 1 ≤ (escape c).length := by
      unfold escape
      repeat' split
      all_goals simp
    rw [List.flatMap_cons, List.length_append, List.length_cons]
    omega

/-- **A written string is read back.** -/
theorem string_quote (s rest : List Char) :
    string (s.flatMap escape ++ '"' :: rest) = .ok (s, rest) := by
  have hfrom : ∀ fuel done, s.length < fuel →
      stringFrom fuel done (s.flatMap escape ++ '"' :: rest) = .ok (done.reverse ++ s, rest) := by
    induction s with
    | nil =>
      intro fuel done hfuel
      obtain ⟨fuel, rfl⟩ := Nat.exists_eq_add_one.mpr hfuel
      rw [List.append_nil]
      rfl
    | cons c s ih =>
      intro fuel done hfuel
      rw [List.length_cons] at hfuel
      obtain ⟨fuel, rfl⟩ := Nat.exists_eq_add_one.mpr (Nat.zero_lt_of_lt hfuel)
      rw [List.flatMap_cons, List.append_assoc, stringFrom_escape, ih fuel (c :: done) (by omega)]
      simp
  have hlength := length_le_length_escape s
  refine hfrom _ [] ?_
  rw [List.length_append]
  omega

/-! ## Numbers -/

/-- What follows does not go on with a number. -/
def EndsNumber (rest : List Char) : Prop :=
  ∀ c ∈ rest.head?, c.isDigit = false ∧ c ≠ '.' ∧ c ≠ 'e' ∧ c ≠ 'E'

/-- A number ends where the text does. -/
lemma endsNumber_nil : EndsNumber [] := nofun

/-- A number ends before a character that it does not go on with. -/
lemma endsNumber_cons {c : Char} (hc : c.isDigit = false ∧ c ≠ '.' ∧ c ≠ 'e' ∧ c ≠ 'E')
    (rest : List Char) : EndsNumber (c :: rest) := by
  intro d hd
  obtain rfl : c = d := by simpa using hd
  exact hc

open Decimal (Numeral)

/-- A written exponent is skipped. -/
lemma skipOptionalExponent_eq {n : Numeral} (h : n.WellFormed) {rest : List Char}
    (hrest : EndsNumber rest) :
    skipOptionalExponent (Numeral.exponentChars n.exponent ++ rest) = .ok rest := by
  cases hexponent : n.exponent with
  | none =>
    cases rest with
    | nil => rfl
    | cons c rest =>
      obtain ⟨-, -, he, hE⟩ := hrest c rfl
      show (if c = 'e' ∨ c = 'E' then _ else _) = _
      rw [if_neg (by simp [he, hE])]
  | some e =>
    obtain ⟨negative, digits⟩ := e
    obtain ⟨hne, hdigits⟩ := h.exponent_digits negative digits hexponent
    obtain ⟨first, digits', hfirst⟩ := List.exists_cons_of_ne_nil hne
    have hhead : first.isDigit = true := hdigits first (hfirst ▸ List.mem_cons_self)
    have hdrop := (Numeral.takeWhile_isDigit_append hdigits fun c hc => (hrest c hc).1).2
    have hskip : skipExponent ((if negative then '-' else '+') :: (digits ++ rest)) = .ok rest := by
      rw [hfirst] at hdrop ⊢
      cases negative <;> simp [skipExponent, hhead] <;> simpa [hhead] using hdrop
    exact hskip

/-- What follows the digits before the point. -/
lemma isDigit_head?_tail {n : Numeral} {rest : List Char} (hrest : EndsNumber rest) :
    ∀ c ∈ ((if n.fraction = [] then [] else '.' :: n.fraction) ++
      (Numeral.exponentChars n.exponent ++ rest)).head?, c.isDigit = false := by
  intro c hc
  by_cases hempty : n.fraction = []
  · rw [if_pos hempty, List.nil_append] at hc
    cases hexponent : Numeral.exponentChars n.exponent with
    | nil =>
      rw [hexponent, List.nil_append] at hc
      exact (hrest c hc).1
    | cons d chars =>
      rw [hexponent] at hc
      obtain rfl : d = c := by simpa using hc
      exact (Numeral.head?_exponentChars n.exponent d (by rw [hexponent]; rfl)).1
  · rw [if_neg hempty] at hc
    obtain rfl : '.' = c := by simpa using hc
    rfl

/-- A written fraction is skipped with its exponent. -/
lemma skipFraction_eq {n : Numeral} (h : n.WellFormed) {rest : List Char}
    (hrest : EndsNumber rest) :
    skipFraction ((if n.fraction = [] then [] else '.' :: n.fraction) ++
      (Numeral.exponentChars n.exponent ++ rest)) = .ok rest := by
  have hexponent := skipOptionalExponent_eq h hrest
  by_cases hempty : n.fraction = []
  · rw [if_pos hempty, List.nil_append, ← hexponent]
    unfold skipFraction
    split
    · rename_i digits heq
      exfalso
      cases hchars : Numeral.exponentChars n.exponent with
      | nil =>
        rw [hchars, List.nil_append] at heq
        exact (hrest '.' (by rw [heq]; rfl)).2.1 rfl
      | cons d chars =>
        rw [hchars] at heq
        obtain rfl : d = '.' := (List.cons.inj heq).1
        exact (Numeral.head?_exponentChars n.exponent '.' (by rw [hchars]; rfl)).2 rfl
    · rfl
  · obtain ⟨first, digits, hfirst⟩ := List.exists_cons_of_ne_nil hempty
    have hhead : first.isDigit = true := h.isDigit_fraction first (hfirst ▸ List.mem_cons_self)
    have hstop := @isDigit_head?_tail ⟨n.whole, [], n.exponent⟩ rest hrest
    have hdrop := (Numeral.takeWhile_isDigit_append h.isDigit_fraction hstop).2
    rw [if_pos rfl, List.nil_append] at hdrop
    rw [if_neg hempty, List.cons_append]
    show (if ((n.fraction ++ _).head?.map Char.isDigit).getD false then _ else _) = _
    rw [hdrop, hfirst]
    simpa [hhead] using hexponent

/-- **A written number is skipped.** -/
theorem skipNumber_eq {n : Numeral} (h : n.Strict) {rest : List Char} (hrest : EndsNumber rest) :
    skipNumber (n.chars ++ rest) = .ok rest := by
  have hfraction := skipFraction_eq h.toWellFormed hrest
  have hstop := @isDigit_head?_tail n rest hrest
  rw [Numeral.chars, List.append_assoc, List.append_assoc]
  generalize (if n.fraction = [] then [] else '.' :: n.fraction) ++
    (Numeral.exponentChars n.exponent ++ rest) = tail at hfraction hstop
  obtain ⟨first, digits, hfirst⟩ := List.exists_cons_of_ne_nil h.whole_ne_nil
  have hhead : first.isDigit = true := h.isDigit_whole first (hfirst ▸ List.mem_cons_self)
  by_cases hzero : first = '0'
  · subst hzero
    obtain rfl : digits = [] := by
      have hwhole := h.eq_of_head (by rw [hfirst]; rfl)
      rw [hfirst] at hwhole
      exact (List.cons.inj hwhole).2
    have hnot : (tail.head?.map Char.isDigit).getD false = false := by
      cases tail with
      | nil => rfl
      | cons c tail => exact hstop c rfl
    rw [hfirst, List.singleton_append]
    show (if (tail.head?.map Char.isDigit).getD false then _ else _) = _
    rw [hnot, hfraction]
    rfl
  · have hdrop := (Numeral.takeWhile_isDigit_append h.isDigit_whole hstop).2
    rw [hfirst, List.cons_append, List.dropWhile_cons_of_pos hhead] at hdrop
    rw [hfirst, List.cons_append, skipNumber.eq_def]
    split
    · simp_all
    · rename_i heq
      obtain ⟨rfl, rfl⟩ := List.cons.inj heq
      rw [if_pos hhead, hdrop, hfraction]
    · simp_all

/-- A numeral with a sign is taken as a whole. -/
lemma numberDatum_chars {n : Numeral} (h : n.Strict) (negative : Bool) {token rest : List Char}
    (htoken : token = if negative then '-' :: n.chars else n.chars) (hrest : EndsNumber rest) :
    numberDatum (token ++ rest) = (Datum.ofToken token).map fun number => (number, rest) := by
  have hskip : skipSigned (token ++ rest) = .ok rest := by
    have hnumber := skipNumber_eq h hrest
    subst htoken
    cases negative with
    | true => exact hnumber
    | false =>
      obtain ⟨c, chars, hc, hchars⟩ := h.exists_head
      rw [if_neg Bool.false_ne_true, ← hnumber]
      unfold skipSigned
      split
      · rename_i heq
        rw [hchars, List.cons_append] at heq
        rw [(List.cons.inj heq).1] at hc
        cases hc
      · rfl
  have htake : (token ++ rest).take ((token ++ rest).length - rest.length) = token := by
    rw [List.length_append, Nat.add_sub_cancel, List.take_left]
  rw [numberDatum, hskip]
  show (Datum.ofToken ((token ++ rest).take _) >>= _) = _
  rw [htake]
  cases Datum.ofToken token <;> rfl

/-- A written count is read back. -/
lemma numberDatum_count (k : ℕ) {rest : List Char} (hrest : EndsNumber rest) :
    numberDatum ((Nat.repr k).toList ++ rest) = .ok (.count k, rest) := by
  have hstrict : Numeral.Strict ⟨Nat.toDigits 10 k, [], none⟩ := by
    refine ⟨⟨Nat.toDigits_ne_nil, Numeral.isDigit_toDigits k, nofun, nofun⟩, fun h => ?_⟩
    rcases Nat.eq_zero_or_pos k with rfl | hpos
    · rfl
    · exact absurd h (Decimal.head?_toDigits_ne hpos.ne')
  have htoken : (Nat.repr k).toList = Numeral.chars ⟨Nat.toDigits 10 k, [], none⟩ := by
    simp [Nat.toList_repr, Numeral.chars, Numeral.exponentChars]
  have hall : (Nat.toDigits 10 k).all Char.isDigit = true :=
    List.all_eq_true.mpr (Numeral.isDigit_toDigits k)
  rw [numberDatum_chars hstrict false htoken hrest, Nat.toList_repr, Datum.ofToken, if_pos hall,
    Decimal.digitsValue_toDigits]
  rfl

/-- **A written number is read back.** -/
theorem numberDatum_render {x : Float} (h : x.isFinite = true) {rest : List Char}
    (hrest : EndsNumber rest) :
    numberDatum ((numberStyle.render x).toList ++ rest) = .ok (.number x, rest) := by
  obtain ⟨s, y, hnumber, hlt⟩ := exists_isNumber h
  obtain ⟨n, hstrict, hchars, hrounded, hreal, -⟩ :=
    Decimal.exists_numeral_magnitudeText numberStyle (.inr rfl) hnumber
  have htoken := Decimal.toList_render numberStyle h
  rw [hchars] at htoken
  have hread := hstrict.read?_eq (decide (x.toBits >>> 63 = 1))
  rw [← htoken] at hread
  have hfinite := Decimal.readFinite_of_read?_eq hnumber hlt hread rfl hrounded
  -- a number is never written with digits alone
  have hall : ¬ (numberStyle.render x).toList.all Char.isDigit = true := by
    obtain ⟨c, hc, hnot⟩ := Numeral.exists_not_isDigit (hreal (by decide))
    rw [htoken, Bool.not_eq_true, List.all_eq_false]
    refine ⟨c, ?_, by rw [hnot]; exact Bool.false_ne_true⟩
    split
    · exact List.mem_cons_of_mem _ hc
    · exact hc
  rw [numberDatum_chars hstrict _ htoken hrest, Datum.ofToken, if_neg hall, hfinite]
  rfl

/-! ## Values -/

/-- What a number is read back as: null if it is not finite. -/
def Datum.ofFloat (x : Float) : Datum := if x.isFinite then .number x else .null

mutual

/-- What a value is read back as. -/
def Value.datum : Value → Datum
  | .bool b => .bool b
  | .count n => .count n
  | .number x => .ofFloat x
  | .text s => .text s
  | .object members => .object (membersDatum members)

/-- What members are read back as. -/
def membersDatum : List (String × Value) → List (String × Datum)
  | [] => []
  | (name, value) :: rest => (name, value.datum) :: membersDatum rest

end

/-- The characters of a written string. -/
lemma toList_quote (s : String) :
    (quote s).toList = '"' :: (s.toList.flatMap escape ++ ['"']) := by
  simp [quote]

/-- A value that starts like a number is read as one. -/
lemma datumFrom_number (fuel : ℕ) {c : Char} (hc : c.isDigit = true ∨ c = '-') (text : List Char) :
    datumFrom (fuel + 1) (c :: text) = numberDatum (c :: text) := by
  have hblank : isBlank c = false := by
    unfold isBlank
    rw [decide_eq_false_iff_not]
    rintro (rfl | rfl | rfl | rfl) <;> rcases hc with hc | hc <;> cases hc
  have hskip : skipBlanks (c :: text) = c :: text :=
    List.dropWhile_cons_of_neg (by rw [hblank]; exact Bool.false_ne_true)
  rw [datumFrom, hskip]
  split <;> simp_all

/-- A written string is read back as a value. -/
lemma datumFrom_quote (fuel : ℕ) (s : String) (rest : List Char) :
    datumFrom (fuel + 1) ((quote s).toList ++ rest) = .ok (.text s, rest) := by
  have hstring := string_quote s.toList rest
  rw [toList_quote, List.cons_append, List.append_assoc, List.singleton_append]
  show (string (s.toList.flatMap escape ++ '"' :: rest) >>= _) = _
  rw [hstring]
  show Except.ok (Datum.text (String.ofList s.toList), rest) = _
  rw [String.ofList_toList]

/-- A digit starts the text of a count. -/
lemma exists_cons_repr (k : ℕ) :
    ∃ c chars, c.isDigit = true ∧ (Nat.repr k).toList = c :: chars := by
  obtain ⟨c, chars, hchars⟩ := List.exists_cons_of_ne_nil (@Nat.toDigits_ne_nil k 10)
  refine ⟨c, chars, ?_, by rw [Nat.toList_repr, hchars]⟩
  exact Numeral.isDigit_toDigits k c (hchars ▸ List.mem_cons_self)

/-- A digit or a minus sign starts the text of a finite number. -/
lemma exists_cons_render {x : Float} (h : x.isFinite = true) : ∃ c chars,
    (c.isDigit = true ∨ c = '-') ∧ (numberStyle.render x).toList = c :: chars := by
  obtain ⟨s, y, hnumber, -⟩ := exists_isNumber h
  obtain ⟨n, hstrict, hchars, -⟩ :=
    Decimal.exists_numeral_magnitudeText numberStyle (.inr rfl) hnumber
  obtain ⟨c, chars, hc, hhead⟩ := hstrict.exists_head
  rw [Decimal.toList_render _ h, hchars, hhead]
  split
  · exact ⟨'-', _, .inr rfl, rfl⟩
  · exact ⟨c, chars, .inl hc, rfl⟩

/-- What is not finite is written as null. -/
lemma render_of_not_isFinite {x : Float} (h : x.isFinite = false) :
    numberStyle.render x = "null" := by
  unfold Decimal.Style.render
  dsimp only
  rw [h]
  split
  · rfl
  · split
    · cases ‹false = true›
    · split <;> rfl

/-- A quote starts the text of members. -/
lemma exists_cons_renderMembers (name : String) (value : Value) (members : List (String × Value)) :
    ∃ chars, (renderMembers ((name, value) :: members)).toList = '"' :: chars := by
  cases members with
  | nil =>
    rw [renderMembers, String.append_assoc, String.toList_append, toList_quote, List.cons_append]
    exact ⟨_, rfl⟩
  | cons member members =>
    rw [renderMembers, String.append_assoc, String.append_assoc, String.append_assoc,
      String.toList_append, toList_quote, List.cons_append]
    · exact ⟨_, rfl⟩
    · simp

/-- The text of members that are not the last ones. -/
lemma toList_renderMembers_cons (name : String) (value : Value) {members : List (String × Value)}
    (h : members ≠ []) : (renderMembers ((name, value) :: members)).toList =
      (quote name).toList ++
        ':' :: (value.render.toList ++ ',' :: (renderMembers members).toList) := by
  rw [renderMembers]
  · simp
  · exact h

/-- The text of a single member. -/
lemma toList_renderMembers_singleton (name : String) (value : Value) :
    (renderMembers [(name, value)]).toList = (quote name).toList ++ ':' :: value.render.toList := by
  rw [renderMembers]
  simp

/-- A value without members is read back. -/
lemma datumFrom_render_simple (fuel : ℕ) {v : Value} (hv : ∀ members, v ≠ .object members)
    {rest : List Char} (hrest : EndsNumber rest) :
    datumFrom (fuel + 1) (v.render.toList ++ rest) = .ok (v.datum, rest) := by
  cases v with
  | bool b => cases b <;> rfl
  | count k =>
    obtain ⟨c, chars, hc, hchars⟩ := exists_cons_repr k
    have hnumber := numberDatum_count k hrest
    rw [hchars] at hnumber
    rw [Value.render, hchars, List.cons_append, datumFrom_number fuel (.inl hc)]
    exact hnumber
  | number x =>
    rw [Value.render, Value.datum, Datum.ofFloat]
    cases hx : x.isFinite with
    | true =>
      obtain ⟨c, chars, hc, hchars⟩ := exists_cons_render hx
      have hnumber := numberDatum_render hx hrest
      rw [hchars] at hnumber ⊢
      rw [List.cons_append, datumFrom_number fuel hc]
      exact hnumber
    | false =>
      rw [render_of_not_isFinite hx]
      rfl
  | text s => exact datumFrom_quote fuel s rest
  | object members => exact absurd rfl (hv members)

/-- The name of a member is read, and its value from what follows the colon. -/
lemma membersFrom_quote (fuel : ℕ) (name : String) (text : List Char) :
    membersFrom (fuel + 1) ((quote name).toList ++ ':' :: text) =
      (datumFrom fuel text >>= fun r =>
        match skipBlanks r.2 with
        | [] => .error .truncated
        | '\x7d' :: rest => return ([(name, r.1)], rest)
        | ',' :: rest => (membersFrom fuel rest).map fun s => ((name, r.1) :: s.1, s.2)
        | _ => .error .malformed) := by
  obtain ⟨chars, rfl⟩ : ∃ chars, name = String.ofList chars :=
    ⟨name.toList, String.ofList_toList.symm⟩
  have hstring := string_quote chars (':' :: text)
  rw [toList_quote, String.toList_ofList, List.cons_append, List.append_assoc,
    List.singleton_append]
  show (string (chars.flatMap escape ++ '"' :: ':' :: text) >>= _) = _
  rw [hstring]
  rfl

/-- **A written value is read back.**

**Proof sketch.** Induction on the fuel. The text of every part is shorter than that of the whole,
so the fuel lasts; and a comma or a bracket follows every part, so a number in it ends there. -/
theorem datumFrom_render_and_membersFrom_render (fuel : ℕ) :
    (∀ (v : Value) (rest : List Char), v.render.toList.length < fuel → EndsNumber rest →
      datumFrom fuel (v.render.toList ++ rest) = .ok (v.datum, rest)) ∧
    ∀ (members : List (String × Value)) (rest : List Char), members ≠ [] →
      (renderMembers members).toList.length < fuel →
      membersFrom fuel ((renderMembers members).toList ++ '\x7d' :: rest) =
        .ok (membersDatum members, rest) := by
  induction fuel with
  | zero =>
    exact ⟨fun _ _ h => absurd h (Nat.not_lt_zero _), fun _ _ _ h => absurd h (Nat.not_lt_zero _)⟩
  | succ fuel ih =>
    obtain ⟨hdatum, hmembers⟩ := ih
    have hcomma : ∀ rest, EndsNumber (',' :: rest) := endsNumber_cons (by decide)
    have hbracket : ∀ rest, EndsNumber ('\x7d' :: rest) := endsNumber_cons (by decide)
    constructor
    · intro v rest hfuel hrest
      by_cases hv : ∃ members, v = .object members
      · obtain ⟨members, rfl⟩ := hv
        have hobject : (Value.object members).render.toList =
            '\x7b' :: ((renderMembers members).toList ++ ['\x7d']) := by
          rw [Value.render]
          simp
        rw [hobject, List.length_cons, List.length_append] at hfuel
        rw [hobject, List.cons_append, List.append_assoc, List.singleton_append]
        cases members with
        | nil =>
          rw [renderMembers]
          rfl
        | cons member members =>
          have hread := hmembers (member :: members) rest (by simp) (by omega)
          obtain ⟨chars, hchars⟩ := exists_cons_renderMembers member.1 member.2 members
          rw [hchars] at hread ⊢
          show (membersFrom fuel _).map _ = _
          rw [hread]
          rfl
      · exact datumFrom_render_simple fuel (not_exists.mp hv) hrest
    · rintro members rest hne hfuel
      obtain ⟨⟨name, value⟩, members, rfl⟩ := List.exists_cons_of_ne_nil hne
      by_cases hlast : members = []
      · subst hlast
        rw [toList_renderMembers_singleton] at hfuel ⊢
        rw [List.length_append, List.length_cons] at hfuel
        rw [List.append_assoc, List.cons_append, membersFrom_quote,
          hdatum value ('\x7d' :: rest) (by omega) (hbracket rest)]
        rfl
      · rw [toList_renderMembers_cons name value hlast] at hfuel ⊢
        rw [List.length_append, List.length_cons, List.length_append, List.length_cons] at hfuel
        rw [List.append_assoc, List.cons_append, List.append_assoc, List.cons_append,
          membersFrom_quote, hdatum value _ (by omega) (hcomma _)]
        show (membersFrom fuel _).map _ = _
        rw [hmembers members rest hlast (by omega)]
        rfl

/-- **A written value is read back.** -/
theorem readWhole_render (v : Value) : readWhole datum v.render = .ok v.datum := by
  have hread := (datumFrom_render_and_membersFrom_render (v.render.toList.length + 1)).1 v []
    (Nat.lt_succ_self _) endsNumber_nil
  rw [List.append_nil] at hread
  rw [readWhole, datum, hread]
  rfl

/-! ## Lines -/

/-- No digit of a number below sixteen ends a line. -/
lemma hexDigit_ne_newline : ∀ n < 16, hexDigit n ≠ '\n' := by decide

/-- Line ends are escaped. -/
lemma newline_notMem_escape (c : Char) : '\n' ∉ escape c := by
  unfold escape
  split; · decide
  split; · decide
  split; · decide
  split; · decide
  split; · decide
  split; · decide
  split; · decide
  split
  · have hhigh := hexDigit_ne_newline (c.toNat / 16) (by omega)
    have hlow := hexDigit_ne_newline (c.toNat % 16) (by omega)
    simp [hhigh.symm, hlow.symm]
  · rename_i hnewline _ _ _
    simpa using Ne.symm hnewline

/-- The text of a string has no line end. -/
lemma newline_notMem_quote (s : String) : '\n' ∉ (quote s).toList := by
  rw [toList_quote]
  simp [newline_notMem_escape]

/-- **The text of a value is a single line.** -/
theorem newline_notMem_render (v : Value) : '\n' ∉ v.render.toList := by
  refine @Value.rec (fun v => '\n' ∉ v.render.toList)
    (fun members => '\n' ∉ (renderMembers members).toList)
    (fun member => '\n' ∉ member.2.render.toList) ?_ ?_ ?_ ?_ ?_ ?_ ?_ ?_ v
  · intro b
    cases b <;> decide
  · exact Decimal.newline_notMem_repr
  · exact Decimal.newline_notMem_render numberStyle (.inr rfl) (by decide) (by decide) (by decide)
  · exact newline_notMem_quote
  · intro members h
    rw [Value.render]
    simpa using h
  · decide
  · rintro ⟨name, value⟩ members hvalue hmembers
    have hname := newline_notMem_quote name
    by_cases hlast : members = []
    · subst hlast
      rw [toList_renderMembers_singleton]
      simp_all
    · rw [toList_renderMembers_cons name value hlast]
      simp_all
  · intro name value h
    exact h

end SymbolicRegression.Json
