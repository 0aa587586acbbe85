import VectorGraphics.Path.Reader
import VectorGraphics.Proofs.Number.Literal

/-!
# Numerals in path data

A numeral is an optional sign, digits, a point with digits if there is one, and a power of ten if
there is one; each run of digits may be empty. Not every numeral is a literal of a number.

The scanner takes the longest numeral in front of a text, and that is the only way to split the text
into a numeral and a rest that does not continue it (`takeNumber_eq_iff`).
-/

namespace VectorGraphics.Path

/-! ## The language -/

/-- One sign or none. -/
def IsSign (cs : List Char) : Prop := cs = [] ∨ cs = ['-'] ∨ cs = ['+']

/-- A run of digits, which may be empty. -/
def IsDigitRun (cs : List Char) : Prop := ∀ c ∈ cs, c.isDigit = true

/-- A point with the digits after it, or nothing. -/
def IsPointed (cs : List Char) : Prop := cs = [] ∨ ∃ ds, IsDigitRun ds ∧ cs = '.' :: ds

/-- A power of ten with an optional sign, or nothing. -/
def IsPower (cs : List Char) : Prop :=
  cs = [] ∨ ∃ e sign ds, (e = 'e' ∨ e = 'E') ∧ IsSign sign ∧ IsDigitRun ds ∧ cs = e :: sign ++ ds

/-- A sign, digits, a point with digits and a power of ten, each of which may be missing. -/
def IsNumeral (cs : List Char) : Prop :=
  ∃ sign whole fraction power, IsSign sign ∧ IsDigitRun whole ∧ IsPointed fraction ∧ IsPower power
    ∧ cs = sign ++ (whole ++ (fraction ++ power))

/-- A numeral that no beginning of the rest of the text continues. -/
structure IsLongest (numeral rest : List Char) : Prop where
  isNumeral : IsNumeral numeral
  longest : ∀ more, more <+: rest → IsNumeral (numeral ++ more) → more = []

/-! ## What is taken is a numeral -/

theorem isSign_takeSign (cs : List Char) : IsSign (takeSign cs).1 := by
  unfold takeSign
  split
  · exact .inr (.inl rfl)
  · exact .inr (.inr rfl)
  · exact .inl rfl

theorem isDigitRun_takeDigits (cs : List Char) : IsDigitRun (Decimal.takeDigits cs).1 :=
  fun _ hc => List.mem_takeWhile_imp hc

theorem isPointed_takePointed (cs : List Char) : IsPointed (takePointed cs).1 := by
  unfold takePointed
  split
  · exact .inr ⟨_, isDigitRun_takeDigits _, rfl⟩
  · exact .inl rfl

theorem isPower_takePower (cs : List Char) : IsPower (takePower cs).1 := by
  unfold takePower
  split
  · exact .inl rfl
  · split
    · next he => exact .inr ⟨_, _, _, he, isSign_takeSign _, isDigitRun_takeDigits _, rfl⟩
    · exact .inl rfl

theorem takeNumber_fst (cs : List Char) :
    (takeNumber cs).1
      = (takeSign cs).1 ++ ((Decimal.takeDigits (takeSign cs).2).1
        ++ ((takePointed (Decimal.takeDigits (takeSign cs).2).2).1
          ++ (takePower (takePointed (Decimal.takeDigits (takeSign cs).2).2).2).1)) := by
  simp only [takeNumber, List.append_assoc]

theorem isNumeral_takeNumber (cs : List Char) : IsNumeral (takeNumber cs).1 :=
  ⟨_, _, _, _, isSign_takeSign _, isDigitRun_takeDigits _, isPointed_takePointed _,
    isPower_takePower _, takeNumber_fst cs⟩

/-! ## No numeral in front is longer

At each stage, one part of a numeral in front of the text is compared with what the scanner takes.
They agree if the numeral goes on behind that part; otherwise the numeral ends here, and what is
taken may be longer. -/

theorem not_sign_of_isDigit {c : Char} (h : c.isDigit = true) : c ≠ '-' ∧ c ≠ '+' := by
  constructor <;>
  · rintro rfl
    exact absurd h (by decide)

section Stages

variable {part after cs taken rest : List Char}

theorem sign_stage (hpart : IsSign part)
    (hafter : ∀ c, after.head? = some c → c ≠ '-' ∧ c ≠ '+') (h : part ++ after <+: cs) :
    part = (takeSign cs).1 ∨ part ++ after <+: (takeSign cs).1 := by
  obtain ⟨behind, rfl⟩ := h
  obtain rfl | rfl | rfl := hpart
  · cases after with
    | nil => exact .inr List.nil_prefix
    | cons c after =>
      obtain ⟨hminus, hplus⟩ := hafter c rfl
      refine .inl ?_
      simp only [List.nil_append, List.cons_append]
      rw [takeSign]
      · exact fun _ h => hminus (List.cons.inj h).1
      · exact fun _ h => hplus (List.cons.inj h).1
  · exact .inl rfl
  · exact .inl rfl

theorem prefix_takeDigits (hpart : IsDigitRun part) (h : part <+: cs) :
    part <+: (Decimal.takeDigits cs).1 := by
  obtain ⟨behind, rfl⟩ := h
  rw [Decimal.takeDigits, List.takeWhile_append_of_pos hpart]
  exact List.prefix_append _ _

theorem digits_stage (hpart : IsDigitRun part)
    (hafter : ∀ c, after.head? = some c → c.isDigit = false) (h : part ++ after <+: cs) :
    part = (Decimal.takeDigits cs).1 ∨ part ++ after <+: (Decimal.takeDigits cs).1 := by
  cases after with
  | nil =>
    rw [List.append_nil] at h ⊢
    exact .inr (prefix_takeDigits hpart h)
  | cons c after =>
    obtain ⟨behind, rfl⟩ := h
    refine .inl ?_
    rw [List.append_assoc, Decimal.takeDigits_of_digits hpart]
    exact fun d hd => hafter d hd

theorem pointed_stage (hpart : IsPointed part)
    (hafter : ∀ c, after.head? = some c → c.isDigit = false ∧ c ≠ '.') (h : part ++ after <+: cs) :
    part = (takePointed cs).1 ∨ part ++ after <+: (takePointed cs).1 := by
  obtain rfl | ⟨ds, hds, rfl⟩ := hpart
  · obtain ⟨behind, rfl⟩ := h
    cases after with
    | nil => exact .inr List.nil_prefix
    | cons c after =>
      refine .inl ?_
      simp only [List.nil_append, List.cons_append]
      rw [takePointed]
      exact fun _ h => (hafter c rfl).2 (List.cons.inj h).1
  · obtain ⟨behind, rfl⟩ := h
    obtain heq | hfront := digits_stage hds (fun c hc => (hafter c hc).1)
      (List.prefix_append (ds ++ after) behind)
    · exact .inl (congrArg ('.' :: ·) heq)
    · exact .inr (List.cons_prefix_cons.2 ⟨rfl, hfront⟩)

/-- From one part to the next: what lies behind the part is compared with the rest of the text. -/
theorem prefix_of_stage {next : List Char} (hstage : part = taken ∨ part ++ after <+: taken)
    (h : part ++ after <+: taken ++ rest) (hnext : after <+: rest → after <+: next) :
    part ++ after <+: taken ++ next := by
  obtain rfl | hfront := hstage
  · exact (List.prefix_append_right_inj part).2 (hnext ((List.prefix_append_right_inj part).1 h))
  · exact hfront.trans (List.prefix_append taken next)

theorem power_stage (hpart : IsPower part) (h : part <+: cs) : part <+: (takePower cs).1 := by
  obtain rfl | ⟨e, sign, ds, he, hsign, hds, rfl⟩ := hpart
  · exact List.nil_prefix
  · obtain ⟨behind, rfl⟩ := h
    simp only [List.cons_append, takePower, he, if_true]
    refine List.cons_prefix_cons.2 ⟨rfl, ?_⟩
    have hfront : sign ++ ds <+: sign ++ ds ++ behind := List.prefix_append _ _
    have happend := (takeSign_append (sign ++ ds ++ behind)).symm
    refine prefix_of_stage (sign_stage hsign (fun c hc => ?_) hfront) (happend ▸ hfront)
      fun hdigits => ?_
    · exact not_sign_of_isDigit (hds c (List.mem_of_mem_head? hc))
    · exact prefix_takeDigits hds hdigits

end Stages

theorem head?_power {power : List Char} (h : IsPower power) {c : Char}
    (hc : power.head? = some c) : c = 'e' ∨ c = 'E' := by
  obtain rfl | ⟨e, sign, ds, he, -, -, rfl⟩ := h
  · cases hc
  · rwa [← Option.some.inj hc]

theorem head?_pointed_power {fraction power : List Char} (hf : IsPointed fraction)
    (hp : IsPower power) {c : Char} (hc : (fraction ++ power).head? = some c) :
    c = '.' ∨ c = 'e' ∨ c = 'E' := by
  obtain rfl | ⟨ds, -, rfl⟩ := hf
  · exact .inr (head?_power hp hc)
  · exact .inl (Option.some.inj hc).symm

theorem head?_unsigned {whole fraction power : List Char} (hw : IsDigitRun whole)
    (hf : IsPointed fraction) (hp : IsPower power) {c : Char}
    (hc : (whole ++ (fraction ++ power)).head? = some c) :
    c.isDigit = true ∨ c = '.' ∨ c = 'e' ∨ c = 'E' := by
  cases whole with
  | nil => exact .inr (head?_pointed_power hf hp hc)
  | cons d whole =>
    rw [← Option.some.inj hc]
    exact .inl (hw d List.mem_cons_self)

/-- A numeral in front of a text is part of what is taken. -/
theorem prefix_takeNumber {numeral cs : List Char} (h : IsNumeral numeral)
    (hfront : numeral <+: cs) : numeral <+: (takeNumber cs).1 := by
  obtain ⟨sign, whole, fraction, power, hs, hw, hf, hp, rfl⟩ := h
  rw [takeNumber_fst]
  refine prefix_of_stage (sign_stage hs (fun c hc => ?_) hfront)
    (by rwa [takeSign_append]) fun hfront => ?_
  · obtain hdigit | rfl | rfl | rfl := head?_unsigned hw hf hp hc
    · exact not_sign_of_isDigit hdigit
    all_goals decide
  refine prefix_of_stage (digits_stage hw (fun c hc => ?_) hfront)
    (by rwa [takeDigits_append]) fun hfront => ?_
  · obtain rfl | rfl | rfl := head?_pointed_power hf hp hc <;> rfl
  refine prefix_of_stage (pointed_stage hf (fun c hc => ?_) hfront)
    (by rwa [takePointed_append]) fun hfront => ?_
  · obtain rfl | rfl := head?_power hp hc <;> decide
  exact power_stage hp hfront

/-- **Numbers are as long as they can be.** The scanner splits a text into a numeral and a rest that
does not continue it, and there is no other way to do so. -/
theorem takeNumber_eq_iff {cs numeral rest : List Char} :
    takeNumber cs = (numeral, rest) ↔ cs = numeral ++ rest ∧ IsLongest numeral rest := by
  constructor
  · intro h
    have happend := takeNumber_append cs
    have hnumeral := isNumeral_takeNumber cs
    simp only [h] at happend hnumeral
    refine ⟨happend.symm, hnumeral, fun more ⟨behind, hmore⟩ hlonger => ?_⟩
    have hfront : numeral ++ more <+: numeral := by
      have hstarts : numeral ++ more <+: cs := ⟨behind, by rw [List.append_assoc, hmore, happend]⟩
      have htaken := prefix_takeNumber hlonger hstarts
      rwa [h] at htaken
    simpa using hfront.length_le
  · rintro ⟨rfl, hnumeral, hlongest⟩
    obtain ⟨more, hmore⟩ := prefix_takeNumber hnumeral (List.prefix_append numeral rest)
    have happend := takeNumber_append (numeral ++ rest)
    rw [← hmore, List.append_assoc] at happend
    have hrest : more ++ (takeNumber (numeral ++ rest)).2 = rest := List.append_cancel_left happend
    have hnil : more = [] := hlongest more ⟨_, hrest⟩ (hmore ▸ isNumeral_takeNumber _)
    rw [hnil, List.append_nil] at hmore
    rw [hnil, List.nil_append] at hrest
    exact Prod.ext hmore.symm hrest

/-! ## How a literal begins -/

/-- With nothing in front of the power of ten a numeral is no literal. -/
theorem ofLiteral?_power {e : Char} (he : e = 'e' ∨ e = 'E') (cs : List Char) :
    Single.ofLiteral? (e :: cs) = none := by
  have hlower : e.toLower = 'e' := by
    obtain rfl | rfl := he <;> rfl
  have hword (word : String) (hw : word.toList.head? ≠ some 'e') :
      String.ofList ((e :: cs).map Char.toLower) ≠ word := by
    rintro rfl
    exact hw (by rw [String.toList_ofList, List.map_cons, List.head?_cons, hlower])
  have hnumber : Decimal.ofLiteral? (e :: cs) = none := by
    obtain rfl | rfl := he <;> rfl
  have hunsigned : Single.ofUnsigned? (e :: cs) = none := by
    simp only [Single.ofUnsigned?, hword "inf" (by decide), hword "infinity" (by decide),
      hword "nan" (by decide), hnumber, or_self, if_false, Option.map_none]
  obtain rfl | rfl := he <;> exact hunsigned

/-- A numeral that is the literal of a number begins as parameters do. -/
theorem IsNumeral.beginsNumber {numeral : List Char} (h : IsNumeral numeral) {x : Single}
    (hx : Single.ofLiteral? numeral = some x) :
    ∃ c cs, numeral = c :: cs ∧ beginsNumber c = true := by
  obtain ⟨sign, whole, fraction, power, hs, hw, hf, hp, rfl⟩ := h
  obtain rfl | rfl | rfl := hs
  · cases hcs : whole ++ (fraction ++ power) with
    | nil =>
      rw [hcs] at hx
      cases hx
    | cons c cs =>
      refine ⟨c, cs, rfl, ?_⟩
      obtain hdigit | rfl | he := head?_unsigned hw hf hp (congrArg List.head? hcs)
      · simp [Path.beginsNumber, hdigit]
      · rfl
      · rw [List.nil_append, hcs, ofLiteral?_power he] at hx
        cases hx
  · exact ⟨_, _, rfl, rfl⟩
  · exact ⟨_, _, rfl, rfl⟩

end VectorGraphics.Path
