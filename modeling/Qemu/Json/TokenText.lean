import Qemu.Json.LexerRun

namespace Qemu.Json

inductive Family where
  | dqString
  | sqString
  | number
  | keyword
  | interp
  | none
  deriving DecidableEq, Repr

def family : LexerState → Family
  | .dqString | .dqStringEscape => .dqString
  | .sqString | .sqStringEscape => .sqString
  | .zero | .expDigits | .expSign | .expE | .mantissa | .mantissaDigits | .digits | .sign => .number
  | .keyword => .keyword
  | .interp => .interp
  | .recovery | .start | .startInterp => .none

variable {s next last initial : LexerState} {c : UInt8}

theorem advance_family (begun : family s ≠ .none) (step : advance s c = some next) :
    family next = family s := by
  cases s with
  | recovery | start | startInterp => exact absurd rfl begun
  | _ =>
    simp only [advance, jsonLexer, escapeRow, stringRow] at step
    split_ifs at step <;> cases step <;> rfl

theorem scan_family (begun : family s ≠ .none) (read : scan s text = some last) :
    family last = family s := by
  induction text generalizing s with
  | nil => rw [Option.some.inj read]
  | cons c rest ih =>
    obtain ⟨next, step, more⟩ := Option.bind_eq_some_iff.mp read
    have same := advance_family begun step
    exact (ih (same ▸ begun) more).trans same

/-- The first character of a token. -/
inductive Begins (initial : LexerState) (c : UInt8) : LexerState → Prop
  | dqString (quote : c = quotationMark) : Begins initial c .dqString
  | sqString (quote : c = apostrophe) : Begins initial c .sqString
  | zero (isZero : c = '0'.toUInt8) : Begins initial c .zero
  | digits (nonzero : between '1' '9' c = true) : Begins initial c .digits
  | sign (minus : c = '-'.toUInt8) : Begins initial c .sign
  | keyword (letter : between 'a' 'z' c = true) : Begins initial c .keyword
  | interp (interpolates : initial = .startInterp) : Begins initial c .interp

theorem begins_startRow (row : jsonLexer initial c = startRow c)
    (step : advance initial c = some next) : Begins initial c next := by
  rw [advance, row, startRow] at step
  split_ifs at step with quote apostrophe isZero nonzero minus letter
  case neg =>
    generalize structural c = found at step
    cases found <;> cases step
  all_goals cases step
  · exact .dqString quote
  · exact .sqString apostrophe
  · exact .zero isZero
  · exact .digits nonzero
  · exact .sign minus
  · exact .keyword letter

theorem begins (starts : initial.IsStart) (step : advance initial c = some next) :
    Begins initial c next := by
  rcases starts with rfl | rfl
  · exact begins_startRow rfl step
  by_cases percent : c = '%'.toUInt8
  · subst percent
    cases step
    exact .interp rfl
  · have row : jsonLexer .startInterp c = startRow c := if_neg percent
    exact begins_startRow row step

/-- A token that ends in a state of some kind began with it. -/
theorem begins_of_scan (starts : initial.IsStart) (begun : family last ≠ .none)
    (read : scan initial text = some last) :
    ∃ c rest next, text = c :: rest ∧ Begins initial c next ∧ scan next rest = some last ∧
    family next = family last := by
  cases text with
  | nil =>
    obtain rfl := Option.some.inj read
    rcases starts with rfl | rfl <;> exact absurd rfl begun
  | cons c rest => ?_
  obtain ⟨next, step, more⟩ := Option.bind_eq_some_iff.mp read
  have beginning := begins starts step
  have some : family next ≠ .none := by
    cases beginning <;> decide
  exact ⟨c, rest, next, rfl, beginning, more, (scan_family some more).symm⟩

/-- What stands between the quotes: characters, and characters after a backslash. -/
inductive Body (quote : UInt8) : List UInt8 → Prop
  | nil : Body quote []
  | plain {c : UInt8} {rest : List UInt8} (inside : inString c = true) (notQuote : c ≠ quote)
      (notEscape : c ≠ reverseSolidus) (more : Body quote rest) : Body quote (c :: rest)
  | escape {c : UInt8} {rest : List UInt8} (inside : inString c = true) (more : Body quote rest) :
      Body quote (reverseSolidus :: c :: rest)

/-- A string with its quotes. -/
inductive StringText : List UInt8 → Prop
  | quoted {quote : UInt8} {body : List UInt8}
    (isQuote : quote = quotationMark ∨ quote = apostrophe) (inside : Body quote body) :
      StringText (quote :: body ++ [quote])

/-- The two kinds of strings in the table. -/
structure StringStates (quote : UInt8) (string escape : LexerState) : Prop where
  reads : ∀ c, advance string c = if c = quote then none else if c = reverseSolidus then some escape
    else if inString c then some string else none
  escapes : ∀ c, advance escape c = if inString c then some string else none

theorem stringStates : StringStates quotationMark .dqString .dqStringEscape ∧
    StringStates apostrophe .sqString .sqStringEscape := by
  refine ⟨⟨?_, ?_⟩, ⟨?_, ?_⟩⟩
  all_goals
    intro c
    simp only [advance, jsonLexer, stringRow, escapeRow]
    split_ifs <;> rfl

/-- What is read in a string, and after a backslash in it. -/
theorem StringStates.body (states : StringStates quote string escape)
    (apart : escape ≠ string) (text : List UInt8) :
    (scan string text = some string → Body quote text) ∧
      (scan escape text = some string → ∃ c rest, text = c :: rest ∧ inString c = true ∧
      Body quote rest) := by
  induction text with
  | nil => exact ⟨fun _ => .nil, fun read => absurd (Option.some.inj read) apart⟩
  | cons c rest ih => ?_
  obtain ⟨inString, inEscape⟩ := ih
  constructor
  · intro read
    rw [scan, states.reads] at read
    split_ifs at read with isQuote isEscape inside
    · cases read
    · obtain ⟨c', rest', rfl, inside, body⟩ := inEscape read
      subst isEscape
      exact .escape inside body
    · exact .plain inside isQuote isEscape (inString read)
    · cases read
  · intro read
    rw [scan, states.escapes] at read
    split_ifs at read with inside
    · exact ⟨c, rest, rfl, inside, inString read⟩
    · cases read

theorem startRow_ne_string : startRow c ≠ .emit .string := by
  rw [startRow]
  split_ifs
  case neg =>
    cases found : structural c with
    | none => decide
    | some t =>
      intro same
      cases same
      exact absurd (structural_mem found) (by decide)
  all_goals decide

theorem row_of_string (entry : jsonLexer s c = .emit .string) :
    s = .dqString ∧ c = quotationMark ∨ s = .sqString ∧ c = apostrophe := by
  cases s with
  | start => exact absurd entry startRow_ne_string
  | startInterp =>
    rw [jsonLexer] at entry
    split_ifs at entry
    · cases entry
    · exact absurd entry startRow_ne_string
  | dqString | sqString =>
    rw [jsonLexer, stringRow] at entry
    split_ifs at entry with quote
    · simp [quote]
    all_goals cases entry
  | _ =>
    simp only [jsonLexer, escapeRow] at entry
    split_ifs at entry <;> cases entry

/-- String tokens end where the string does. -/
theorem stringText_of_emit (starts : initial.IsStart) (read : scan initial text = some s)
    (entry : jsonLexer s c = .emit .string) : StringText (text ++ [c]) := by
  rcases row_of_string entry with ⟨rfl, rfl⟩ | ⟨rfl, rfl⟩
  · obtain ⟨c, rest, next, rfl, beginning, more, same⟩ := begins_of_scan starts (by decide) read
    cases beginning with
    | dqString quote =>
      subst quote
      exact .quoted (.inl rfl) ((stringStates.1.body (by decide) rest).1 more)
    | _ => cases same
  · obtain ⟨c, rest, next, rfl, beginning, more, same⟩ := begins_of_scan starts (by decide) read
    cases beginning with
    | sqString quote =>
      subst quote
      exact .quoted (.inr rfl) ((stringStates.2.body (by decide) rest).1 more)
    | _ => cases same

end Qemu.Json
