import Qemu.Json.TokenText

/-! Numbers: the grammar of RFC 8259 and the states of the lexer, which has no exponent after a lone
zero. -/

namespace Qemu.Json

open List Option

/-- `1*DIGIT` -/
def Digits (text : List UInt8) : Prop := text ≠ [] ∧ ∀ c ∈ text, digit c = true

/-- `int = zero / ( digit1-9 *DIGIT )` -/
inductive IntPart : List UInt8 → Prop
  | zero : IntPart ['0'.toUInt8]
  | digits {first : UInt8} {rest : List UInt8} (nonzero : between '1' '9' first = true)
      (more : ∀ c ∈ rest, digit c = true) : IntPart (first :: rest)

/-- `frac = decimal-point 1*DIGIT` -/
inductive FracPart : List UInt8 → Prop
  | point {digits : List UInt8} (some : Digits digits) : FracPart ('.'.toUInt8 :: digits)

/-- `exp = e [ minus / plus ] 1*DIGIT` -/
inductive ExpPart : List UInt8 → Prop
  | exponent {e : UInt8} {sign digits : List UInt8} (isE : e = 'e'.toUInt8 ∨ e = 'E'.toUInt8)
      (isSign : sign = [] ∨ sign = ['-'.toUInt8] ∨ sign = ['+'.toUInt8]) (some : Digits digits) :
      ExpPart (e :: sign ++ digits)

/-- `number = [ minus ] int [ frac ] [ exp ]` -/
structure NumberParts (text : List UInt8) where
  minus : List UInt8
  int : List UInt8
  frac : List UInt8
  exp : List UInt8
  parts : text = minus ++ (int ++ (frac ++ exp))
  isMinus : minus = [] ∨ minus = ['-'.toUInt8]
  isInt : IntPart int
  isFrac : frac = [] ∨ FracPart frac
  isExp : exp = [] ∨ ExpPart exp

/-- An integer has neither a fraction nor an exponent. -/
def tailKind (frac exp : List UInt8) : TokenType := if frac = [] ∧ exp = [] then .integer else .float

def NumberOf (kind : TokenType) (text : List UInt8) : Prop :=
  ∃ number : NumberParts text, kind = tailKind number.frac number.exp

def Number (text : List UInt8) : Prop := Nonempty (NumberParts text)

/-- A zero with an exponent but no fraction. -/
def ZeroExponent (text : List UInt8) : Prop :=
  ∃ number : NumberParts text, number.int = ['0'.toUInt8] ∧ number.frac = [] ∧ number.exp ≠ []

/-- The token that a state ends in, for the states of numbers. -/
def kindOf : LexerState → Option TokenType
  | .zero | .digits => some .integer
  | .mantissaDigits | .expDigits => some .float
  | _ => none

variable {last : LexerState} {kind : TokenType}

theorem scan_expDigits (read : scan .expDigits text = some last) :
    last = .expDigits ∧ ∀ c ∈ text, digit c = true := by
  induction text with
  | nil => exact ⟨(some.inj read).symm, nofun⟩
  | cons c rest ih => ?_
  rw [scan, advance, jsonLexer] at read
  split_ifs at read with isDigit
  · obtain ⟨same, digits⟩ := ih read
    exact ⟨same, forall_mem_cons.mpr ⟨isDigit, digits⟩⟩
  · cases read

variable (ends : kindOf last = some kind)
include ends

theorem scan_expSign (read : scan .expSign text = some last) : last = .expDigits ∧ Digits text := by
  cases text with
  | nil =>
    obtain rfl := some.inj read
    cases ends
  | cons c rest => ?_
  rw [scan, advance, jsonLexer] at read
  split_ifs at read with isDigit
  · obtain ⟨same, digits⟩ := scan_expDigits read
    exact ⟨same, cons_ne_nil _ _, forall_mem_cons.mpr ⟨isDigit, digits⟩⟩
  · cases read

theorem scan_expE (isE : e = 'e'.toUInt8 ∨ e = 'E'.toUInt8) (read : scan .expE text = some last) :
    last = .expDigits ∧ ExpPart (e :: text) := by
  cases text with
  | nil =>
    obtain rfl := some.inj read
    cases ends
  | cons c rest => ?_
  rw [scan, advance, jsonLexer] at read
  split_ifs at read with isSign isDigit
  · obtain ⟨same, digits⟩ := scan_expSign ends read
    have part : ExpPart (e :: [c] ++ rest) := .exponent isE (.inr (by simpa using isSign)) digits
    exact ⟨same, part⟩
  · obtain ⟨same, digits⟩ := scan_expDigits read
    have part : ExpPart (e :: [] ++ (c :: rest)) :=
      .exponent isE (.inl rfl) ⟨cons_ne_nil _ _, forall_mem_cons.mpr ⟨isDigit, digits⟩⟩
    exact ⟨same, part⟩
  · cases read

/-- Digits, and perhaps an exponent. -/
theorem scan_mantissaDigits (read : scan .mantissaDigits text = some last) :
    kind = .float ∧ ∃ digits exp, text = digits ++ exp ∧ (∀ c ∈ digits, digit c = true) ∧
    (exp = [] ∨ ExpPart exp) := by
  induction text with
  | nil =>
    obtain rfl := some.inj read
    exact ⟨(some.inj ends).symm, [], [], rfl, nofun, .inl rfl⟩
  | cons c rest ih => ?_
  rw [scan, advance, jsonLexer] at read
  split_ifs at read with isDigit isE
  · obtain ⟨isFloat, digits, exp, rfl, all, isExp⟩ := ih read
    exact ⟨isFloat, c :: digits, exp, rfl, forall_mem_cons.mpr ⟨isDigit, all⟩, isExp⟩
  · obtain ⟨rfl, isExp⟩ := scan_expE ends isE read
    exact ⟨(some.inj ends).symm, [], c :: rest, rfl, nofun, .inr isExp⟩
  · cases read

theorem scan_mantissa (read : scan .mantissa text = some last) :
    kind = .float ∧ ∃ digits exp, text = digits ++ exp ∧ Digits digits ∧ (exp = [] ∨ ExpPart exp) := by
  cases text with
  | nil =>
    obtain rfl := some.inj read
    cases ends
  | cons c rest => ?_
  rw [scan, advance, jsonLexer] at read
  split_ifs at read with isDigit
  · obtain ⟨isFloat, digits, exp, rfl, all, isExp⟩ := scan_mantissaDigits ends read
    exact ⟨isFloat, c :: digits, exp, rfl, ⟨cons_ne_nil _ _, forall_mem_cons.mpr ⟨isDigit, all⟩⟩, isExp⟩
  · cases read

/-- What may follow the integer part. -/
structure Tail (kind : TokenType) (frac exp : List UInt8) : Prop where
  isFrac : frac = [] ∨ FracPart frac
  isExp : exp = [] ∨ ExpPart exp
  kindEq : kind = tailKind frac exp

theorem tail_of_point (read : scan .mantissa text = some last) :
    ∃ frac exp, '.'.toUInt8 :: text = frac ++ exp ∧ Tail kind frac exp := by
  obtain ⟨isFloat, digits, exp, rfl, some, isExp⟩ := scan_mantissa ends read
  exact ⟨'.'.toUInt8 :: digits, exp, rfl, .inr (.point some), isExp, by simp [isFloat, tailKind]⟩

theorem scan_digits (read : scan .digits text = some last) :
    ∃ digits frac exp, text = digits ++ (frac ++ exp) ∧ (∀ c ∈ digits, digit c = true) ∧
    Tail kind frac exp := by
  induction text with
  | nil =>
    obtain rfl := some.inj read
    exact ⟨[], [], [], rfl, nofun, .inl rfl, .inl rfl, (some.inj ends).symm⟩
  | cons c rest ih => ?_
  rw [scan, advance, jsonLexer] at read
  split_ifs at read with isDigit isE isPoint
  · obtain ⟨digits, frac, exp, rfl, all, tail⟩ := ih read
    exact ⟨c :: digits, frac, exp, rfl, forall_mem_cons.mpr ⟨isDigit, all⟩, tail⟩
  · obtain ⟨rfl, isExp⟩ := scan_expE ends isE read
    exact ⟨[], [], c :: rest, rfl, nofun, .inl rfl, .inr isExp,
      by simpa [tailKind] using (some.inj ends).symm⟩
  · subst isPoint
    obtain ⟨frac, exp, split, tail⟩ := tail_of_point ends read
    exact ⟨[], frac, exp, split, nofun, tail⟩
  · cases read

theorem scan_zero (read : scan .zero text = some last) : ∃ frac exp, text = frac ++ exp ∧
    Tail kind frac exp := by
  cases text with
  | nil =>
    obtain rfl := some.inj read
    exact ⟨[], [], rfl, .inl rfl, .inl rfl, (some.inj ends).symm⟩
  | cons c rest => ?_
  rw [scan, advance, jsonLexer] at read
  split_ifs at read with isDigit isPoint
  · cases read
  · subst isPoint
    obtain ⟨frac, exp, split, tail⟩ := tail_of_point ends read
    exact ⟨frac, exp, split, tail⟩
  · cases read

theorem scan_int (first : c = '0'.toUInt8 ∧ s = .zero ∨ between '1' '9' c = true ∧ s = .digits)
    (read : scan s text = some last) :
    ∃ int frac exp, c :: text = int ++ (frac ++ exp) ∧ IntPart int ∧ Tail kind frac exp := by
  rcases first with ⟨rfl, rfl⟩ | ⟨nonzero, rfl⟩
  · obtain ⟨frac, exp, rfl, tail⟩ := scan_zero ends read
    exact ⟨['0'.toUInt8], frac, exp, rfl, .zero, tail⟩
  · obtain ⟨digits, frac, exp, rfl, all, tail⟩ := scan_digits ends read
    exact ⟨c :: digits, frac, exp, rfl, .digits nonzero all, tail⟩

theorem scan_sign (read : scan .sign text = some last) :
    ∃ int frac exp, text = int ++ (frac ++ exp) ∧ IntPart int ∧ Tail kind frac exp := by
  cases text with
  | nil =>
    obtain rfl := some.inj read
    cases ends
  | cons c rest => ?_
  rw [scan, advance, jsonLexer] at read
  split_ifs at read with isZero nonzero
  · exact scan_int ends (.inl ⟨isZero, rfl⟩) read
  · exact scan_int ends (.inr ⟨nonzero, rfl⟩) read
  · cases read

variable {initial : LexerState}

/-- What the lexer reads as a number is one. -/
theorem numberOf_of_scan (starts : initial.IsStart) (read : scan initial text = some last) :
    NumberOf kind text := by
  have isNumber : family last = .number := by
    cases last <;> first | rfl | cases ends
  have begun : family last ≠ .none := by
    rw [isNumber]
    decide
  obtain ⟨c, rest, next, rfl, beginning, more, same⟩ := begins_of_scan starts begun read
  have unsigned : ∀ {s : LexerState}, (c = '0'.toUInt8 ∧ s = .zero ∨ between '1' '9' c = true ∧
      s = .digits) → scan s rest = some last → NumberOf kind (c :: rest) := by
    intro s first read
    obtain ⟨int, frac, exp, split, isInt, tail⟩ := scan_int ends first read
    exact ⟨⟨[], int, frac, exp, split, .inl rfl, isInt, tail.isFrac, tail.isExp⟩, tail.kindEq⟩
  rw [isNumber] at same
  cases beginning with
  | zero isZero => exact unsigned (.inl ⟨isZero, rfl⟩) more
  | digits nonzero => exact unsigned (.inr ⟨nonzero, rfl⟩) more
  | sign minus =>
    subst minus
    obtain ⟨int, frac, exp, rfl, isInt, tail⟩ := scan_sign ends more
    exact ⟨⟨['-'.toUInt8], int, frac, exp, rfl, .inr rfl, isInt, tail.isFrac, tail.isExp⟩, tail.kindEq⟩
  | _ => cases same

omit ends

theorem scan_stays (stays : ∀ c, digit c = true → advance s c = some s)
    (digits : ∀ c ∈ text, digit c = true) : scan s text = some s := by
  induction text with
  | nil => rfl
  | cons c rest ih =>
    obtain ⟨isDigit, more⟩ := forall_mem_cons.mp digits
    rw [scan, stays c isDigit]
    exact ih more

/-- Digits that lead from one state into another, which keeps them. -/
theorem scan_enters {next : LexerState} (enters : ∀ c, digit c = true → advance s c = some next)
    (stays : ∀ c, digit c = true → advance next c = some next) (digits : Digits text) :
    scan s text = some next := by
  obtain ⟨nonempty, all⟩ := digits
  cases text with
  | nil => exact absurd rfl nonempty
  | cons c rest =>
    obtain ⟨isDigit, more⟩ := forall_mem_cons.mp all
    rw [scan, enters c isDigit]
    exact scan_stays stays more

theorem digit_ne (isDigit : digit c = true) : c ≠ '-'.toUInt8 ∧ c ≠ '+'.toUInt8 := by
  constructor
  all_goals
    rintro rfl
    revert isDigit
    decide

theorem scan_exp (enters : ∀ e, e = 'e'.toUInt8 ∨ e = 'E'.toUInt8 → advance s e = some .expE)
    (part : ExpPart text) : scan s text = some .expDigits := by
  obtain ⟨isE, isSign, digits⟩ := part
  have expDigits : ∀ c, digit c = true → advance .expDigits c = some .expDigits :=
    fun c isDigit => advance_of_goto (if_pos isDigit) (by decide)
  have expSign : ∀ c, digit c = true → advance .expSign c = some .expDigits :=
    fun c isDigit => advance_of_goto (if_pos isDigit) (by decide)
  have expE : ∀ c, digit c = true → advance .expE c = some .expDigits := fun c isDigit =>
    advance_of_goto ((if_neg (not_or.mpr (digit_ne isDigit))).trans (if_pos isDigit)) (by decide)
  rw [cons_append, scan, enters _ isE]
  rcases isSign with rfl | rfl | rfl
  · exact scan_enters expE expDigits digits
  · exact (scan_append ..).trans (scan_enters expSign expDigits digits)
  · exact (scan_append ..).trans (scan_enters expSign expDigits digits)

theorem scan_frac (enters : advance s '.'.toUInt8 = some .mantissa) (part : FracPart text) :
    scan s text = some .mantissaDigits := by
  obtain ⟨digits⟩ := part
  rw [scan, enters]
  exact scan_enters (fun c isDigit => advance_of_goto (if_pos isDigit) (by decide))
    (fun c isDigit => advance_of_goto (if_pos isDigit) (by decide)) digits

theorem e_not_digit (isE : e = 'e'.toUInt8 ∨ e = 'E'.toUInt8) : ¬ digit e = true := by
  rcases isE with rfl | rfl <;> decide

/-- The states after an integer part: a zero takes no exponent. -/
theorem scan_tail (after : s = .zero ∨ s = .digits) (isFrac : frac = [] ∨ FracPart frac)
    (isExp : exp = [] ∨ ExpPart exp) (allowed : s = .zero → frac = [] → exp = []) :
    ∃ last, scan s (frac ++ exp) = some last ∧ kindOf last = some (tailKind frac exp) := by
  have point : advance s '.'.toUInt8 = some .mantissa := by
    rcases after with rfl | rfl <;> rfl
  rcases isFrac with rfl | isFrac
  · rcases isExp with rfl | isExp
    · refine ⟨s, rfl, ?_⟩
      rcases after with rfl | rfl <;> rfl
    have isDigits : s = .digits := after.resolve_left fun isZero => by
      cases isExp
      cases allowed isZero rfl
    subst isDigits
    refine ⟨.expDigits, scan_exp (fun e isE => ?_) isExp, ?_⟩
    · exact advance_of_goto ((if_neg (e_not_digit isE)).trans (if_pos isE)) (by decide)
    · cases isExp
      rfl
  · have some : frac ≠ [] := by
      cases isFrac
      exact cons_ne_nil _ _
    have kind : tailKind frac exp = .float := if_neg fun both => some both.1
    rw [scan_append, scan_frac point isFrac, kind]
    rcases isExp with rfl | isExp
    · exact ⟨.mantissaDigits, rfl, rfl⟩
    · refine ⟨.expDigits, scan_exp (fun e isE => ?_) isExp, rfl⟩
      exact advance_of_goto ((if_neg (e_not_digit isE)).trans (if_pos isE)) (by decide)

theorem nonzero_ne (nonzero : between '1' '9' c = true) :
    c ≠ quotationMark ∧ c ≠ apostrophe ∧ c ≠ '0'.toUInt8 ∧ c ≠ '%'.toUInt8 := by
  refine ⟨?_, ?_, ?_, ?_⟩
  all_goals
    rintro rfl
    revert nonzero
    decide

/-- The first digit of a number, after a sign or without one. -/
theorem advance_int (before : s = .start ∨ s = .startInterp ∨ s = .sign) :
    advance s '0'.toUInt8 = some .zero ∧ ∀ c, between '1' '9' c = true → advance s c = some .digits := by
  have row : ∀ c, between '1' '9' c = true → startRow c = .goto .digits := by
    intro c nonzero
    obtain ⟨quote, apostrophe, zero, -⟩ := nonzero_ne nonzero
    rw [startRow, if_neg quote, if_neg apostrophe, if_neg zero, if_pos nonzero]
  rcases before with rfl | rfl | rfl
  all_goals refine ⟨rfl, fun c nonzero => advance_of_goto ?_ (by decide)⟩
  · exact row c nonzero
  · exact (if_neg (nonzero_ne nonzero).2.2.2).trans (row c nonzero)
  · exact (if_neg (nonzero_ne nonzero).2.2.1).trans (if_pos nonzero)

theorem scan_intPart (before : s = .start ∨ s = .startInterp ∨ s = .sign) (isInt : IntPart int) :
    int = ['0'.toUInt8] ∧ scan s int = some .zero ∨ scan s int = some .digits := by
  obtain ⟨zero, digits⟩ := advance_int before
  cases isInt with
  | zero =>
    refine .inl ⟨rfl, ?_⟩
    rw [scan, zero]
    rfl
  | digits nonzero more =>
    refine .inr ?_
    rw [scan, digits _ nonzero]
    exact scan_stays (fun c isDigit => advance_of_goto (if_pos isDigit) (by decide)) more

section

variable (starts : initial.IsStart)
include starts

theorem scan_minus (isMinus : minus = [] ∨ minus = ['-'.toUInt8]) :
    ∃ s, scan initial minus = some s ∧ (s = .start ∨ s = .startInterp ∨ s = .sign) := by
  rcases isMinus with rfl | rfl
  · exact ⟨initial, rfl, starts.imp_right .inl⟩
  · refine ⟨.sign, ?_, .inr (.inr rfl)⟩
    rcases starts with rfl | rfl <;> rfl

/-- A number is read, unless it is a zero with an exponent but no fraction. -/
theorem scan_of_number (number : NumberParts text)
    (allowed : ¬ (number.int = ['0'.toUInt8] ∧ number.frac = [] ∧ number.exp ≠ [])) :
    ∃ last, scan initial text = some last ∧ kindOf last = some (tailKind number.frac number.exp) := by
  obtain ⟨minus, int, frac, exp, rfl, isMinus, isInt, isFrac, isExp⟩ := number
  obtain ⟨s, scanned, before⟩ := scan_minus starts isMinus
  rw [scan_append, scanned, bind_some, scan_append]
  rcases scan_intPart before isInt with ⟨isZero, read⟩ | read
  · rw [read]
    refine scan_tail (.inl rfl) isFrac isExp fun _ noFrac => ?_
    by_contra someExp
    exact allowed ⟨isZero, noFrac, someExp⟩
  · rw [read]
    exact scan_tail (.inr rfl) isFrac isExp nofun

theorem scan_zeroExponent (zeroExponent : ZeroExponent text) : scan initial text = none := by
  obtain ⟨number, isZero, noFrac, someExp⟩ := zeroExponent
  obtain ⟨s, scanned, before⟩ := scan_minus starts number.isMinus
  have exponent := number.isExp.resolve_left someExp
  rw [number.parts, isZero, noFrac, scan_append, scanned, bind_some, scan_append, scan,
    (advance_int before).1]
  generalize number.exp = exp at exponent
  obtain ⟨isE, -, -⟩ := exponent
  rcases isE with rfl | rfl <;> rfl

end

end Qemu.Json
