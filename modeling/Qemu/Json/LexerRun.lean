import Qemu.Json.Lexer
import Qemu.Lib.Checked

namespace Qemu.Json

open List Option Lexer Checked

/-- The state after a character that is added to the token. -/
def advance (s : LexerState) (c : UInt8) : Option LexerState :=
  match jsonLexer s c with
  | ⟨.state .start, _⟩ => none
  | ⟨.state .recovery, _⟩ => none
  | ⟨.state next, false⟩ => some next
  | _ => none

def scan (s : LexerState) : List UInt8 → Option LexerState
  | [] => some s
  | c :: rest => (advance s c).bind fun next => scan next rest

theorem scan_append (s : LexerState) (text more : List UInt8) :
    scan s (text ++ more) = (scan s text).bind fun next => scan next more := by
  induction text generalizing s with
  | nil => rfl
  | cons c rest ih =>
    rw [cons_append, scan, scan]
    cases advance s c with
    | none => rfl
    | some next => exact ih next

variable {s next last : LexerState} {text : List UInt8} {c : UInt8}

theorem scan_concat (read : scan s text = some next)
    (step : advance next c = some last) : scan s (text ++ [c]) = some last := by
  rw [scan_append, read, bind_some, scan, step]
  rfl

/-- What an entry can be, by its state. -/
inductive EntryKind (s : LexerState) (c : UInt8) : Entry → Prop
  | advance {next : LexerState} (reads : advance s c = some next) : EntryKind s c (.goto next)
  | skip (isStart : s = .start ∨ s = .startInterp) : EntryKind s c (.goto .start)
  | recover (recovering : s = .recovery) : EntryKind s c (.goto .recovery)
  | restart (recovering : s = .recovery) : EntryKind s c ⟨.state .start, true⟩
  | error : EntryKind s c .error
  | emit {t : TokenType} (good : t = .string ∨ structural c = some t) (reading : s ≠ .recovery) :
    EntryKind s c (.emit t)
  | terminal {t : TokenType} (good : t = .integer ∨ t = .float ∨ t = .keyword ∨ t = .interp)
      (reading : s ≠ .start ∧ s ≠ .startInterp ∧ s ≠ .recovery) : EntryKind s c (.terminal t)

abbrev LexerState.IsStart (s : LexerState) : Prop := s = .start ∨ s = .startInterp

theorem advance_of_goto (row : jsonLexer s c = .goto next)
    (more : next ≠ .start ∧ next ≠ .recovery) : advance s c = some next := by
  rw [advance, row]
  cases next with
  | start => exact absurd rfl more.1
  | recovery => exact absurd rfl more.2
  | _ => rfl

theorem startRow_kind (isStart : s.IsStart)
    (row : jsonLexer s c = startRow c) : EntryKind s c (startRow c) := by
  have reads : ∀ next, startRow c = .goto next → next ≠ .start ∧ next ≠ .recovery →
    EntryKind s c (.goto next) :=
    fun next entry more => .advance (advance_of_goto (row.trans entry) more)
  rw [startRow] at reads ⊢
  split_ifs at reads ⊢
  case neg =>
    cases found : structural c with
    | none => exact .error
    | some t => exact .emit (.inr found) (by rcases isStart with rfl | rfl <;> decide)
  all_goals first | exact .skip isStart | exact reads _ rfl (by decide)

theorem entryKind (s : LexerState) (c : UInt8) : EntryKind s c (jsonLexer s c) := by
  have reads : ∀ next, jsonLexer s c = .goto next → next ≠ .start ∧ next ≠ .recovery →
    EntryKind s c (.goto next) :=
    fun next entry more => .advance (advance_of_goto entry more)
  cases s with
  | start => exact startRow_kind (.inl rfl) rfl
  | startInterp =>
    by_cases percent : c = '%'.toUInt8
    · have entry : jsonLexer .startInterp c = .goto .interp := if_pos percent
      rw [entry]
      exact reads _ entry (by decide)
    · have entry : jsonLexer .startInterp c = startRow c := if_neg percent
      rw [entry]
      exact startRow_kind (.inr rfl) entry
  | recovery =>
    rw [jsonLexer]
    split_ifs
    · exact .recover rfl
    · exact .restart rfl
    · exact .recover rfl
  | _ =>
    simp only [jsonLexer, escapeRow, stringRow] at reads ⊢
    split_ifs at reads ⊢
    all_goals first
      | exact reads _ rfl (by decide)
      | exact .error
      | exact .terminal (by simp) (by decide)
      | exact .emit (.inl rfl) (by decide)

/-- A lexer between tokens. -/
def Lexer.ready (initial : LexerState) : Lexer := ⟨initial, .state initial, []⟩

/-- Between tokens, in recovery, or after the characters of the token. -/
structure Lexer.Sound (lexer : Lexer) : Prop where
  starts : lexer.startState = .start ∨ lexer.startState = .startInterp
  reads : ∃ s, lexer.state = .state s ∧
    (s = .recovery ∧ lexer.token = [] ∨ scan lexer.startState lexer.token = some s)

variable {initial : LexerState}

theorem Lexer.sound_ready (starts : initial.IsStart) :
    (ready initial).Sound := ⟨starts, initial, rfl, .inr rfl⟩

theorem jsonLexerInit_sound (interpolation : Bool) : (jsonLexerInit interpolation).Sound := by
  cases interpolation with
  | false => exact sound_ready (.inl rfl)
  | true => exact sound_ready (.inr rfl)

/-- What the lexer hands on: tokens read by the table, errors, and what has grown too large. -/
inductive Emitted (initial : LexerState) : Call → Prop
  | terminal {s : LexerState} {c : UInt8} {t : TokenType} {text : List UInt8}
    (read : scan initial text = some s)
      (entry : jsonLexer s c = .terminal t) : Emitted initial ⟨.token t, text⟩
  | consumed {s : LexerState} {c : UInt8} {t : TokenType} {text : List UInt8}
      (read : scan initial text = some s)
      (entry : jsonLexer s c = .emit t) : Emitted initial ⟨.token t, text ++ [c]⟩
  | error {text : List UInt8} : Emitted initial ⟨.token .error, text⟩
  | oversize {s : LexerState} {text : List UInt8} (large : maxTokenSize < text.length) :
    Emitted initial ⟨.state s, text⟩

def Code.IsNumber (code : Code) : Prop := code = .token .integer ∨ code = .token .float

/-- The token goes on with the character. -/
structure Advanced (lexer : Lexer) (c : UInt8) (lexer' : Lexer) (calls : List Call) : Prop where
  silent : calls = []
  fits : lexer.token.length < maxTokenSize
  token : lexer'.token = lexer.token ++ [c]
  step : ∃ s next, scan lexer.startState lexer.token = some s ∧ lexer.state = .state s ∧
    advance s c = some next ∧ lexer'.state = .state next

variable {lexer : Lexer} {s : LexerState} {c : UInt8}

theorem feedLoop_consume (fuel : Nat) (here : lexer.state = .state s)
    (now : (jsonLexer s c).lookahead = false) : feedLoop c false (fuel + 2) false lexer =
      .ok ({ lexer with token := lexer.token ++ [c] }.enter (jsonLexer s c).next) := by
  rw [feedLoop, here]
  simp only [nextState, now, feedLoop]
  simp [ok_bind]

theorem feedLoop_ahead (fuel : Nat) (here : lexer.state = .state s)
    (ahead : (jsonLexer s c).lookahead = true) : feedLoop c false (fuel + 1) false lexer =
      (feedLoop c false fuel false (lexer.enter (jsonLexer s c).next).1 >>= fun result =>
        .ok (result.1, (lexer.enter (jsonLexer s c).next).2 ++ result.2)) := by
  rw [feedLoop, here]
  simp only [nextState, ahead]
  rfl

theorem Lexer.limit_of_le (fits : lexer.token.length ≤ maxTokenSize) : lexer.limit = (lexer, []) :=
  if_neg (by omega)

theorem startRow_next (c : UInt8) : (startRow c).next ≠ .state .startInterp := by
  rw [startRow]
  split_ifs
  case neg => cases structural c <;> simp [Entry.emit, Entry.error]
  all_goals exact nofun

theorem jsonLexer_next (s : LexerState) (c : UInt8) : (jsonLexer s c).next ≠ .state .startInterp := by
  cases s with
  | start => exact startRow_next c
  | startInterp =>
    rw [jsonLexer]
    split_ifs
    · exact nofun
    · exact startRow_next c
  | _ =>
    simp only [jsonLexer, escapeRow, stringRow]
    split_ifs <;> exact nofun

theorem goto_of_advance (reads : advance s c = some next) :
    jsonLexer s c = .goto next ∧ next ≠ .start ∧ next ≠ .recovery := by
  rw [advance] at reads
  split at reads
  case h_3 more going entry =>
    obtain rfl := some.inj reads
    exact ⟨entry, more, going⟩
  all_goals cases reads

theorem advance_ne (reads : advance s c = some next) : next ≠ .start ∧ next ≠ .startInterp ∧
    next ≠ .recovery := by
  obtain ⟨entry, more, going⟩ := goto_of_advance reads
  have other := jsonLexer_next s c
  rw [entry] at other
  exact ⟨more, fun same => other (congrArg Code.state same), going⟩

/-- A token that was begun does not lead back to a start state. -/
theorem scan_start (read : scan initial text = some s) (isStart : s.IsStart) : text = [] := by
  rcases eq_nil_or_concat text with rfl | ⟨earlier, c, rfl⟩
  · rfl
  rw [concat_eq_append, scan_append] at read
  obtain ⟨middle, -, step⟩ := bind_eq_some_iff.mp read
  obtain ⟨next, last, ⟨⟩⟩ := bind_eq_some_iff.mp step
  have other := advance_ne last
  exact (isStart.elim other.1 other.2.1).elim

theorem Lexer.enter_reading (more : next ≠ .start ∧ next ≠ .recovery) :
    lexer.enter (.state next) = ({ lexer with state := .state next }, []) := by
  cases next with
  | start => exact absurd rfl more.1
  | recovery => exact absurd rfl more.2
  | _ => rfl

theorem structural_mem (found : structural c = some t) :
    t ∈ [.lsquare, .rsquare, .lcurly, .rcurly, .colon, .comma] := by
  rw [structural] at found
  split_ifs at found <;> cases found <;> decide

theorem emit_mem (good : t = .string ∨ structural c = some t) :
    t ∈ [.string, .lsquare, .rsquare, .lcurly, .rcurly, .colon, .comma] := by
  rcases good with rfl | found
  · exact mem_cons_self
  · exact mem_cons_of_mem _ (structural_mem found)

theorem Lexer.enter_emit (good : t = .string ∨ structural c = some t) :
    lexer.enter (.token t) = (ready lexer.startState, [⟨.token t, lexer.token⟩]) := by
  have member := emit_mem good
  cases t with
  | error | integer | float | keyword | interp | endOfInput => simp at member
  | _ => rfl

theorem jsonLexerFeedChar_of_consume {lexer' : Lexer} {calls : List Call}
    (here : lexer.state = .state s) (now : (jsonLexer s c).lookahead = false)
    (entered : { lexer with token := lexer.token ++ [c] }.enter (jsonLexer s c).next = (lexer', calls)) :
    jsonLexerFeedChar c false lexer = .ok (lexer'.limit.1, calls ++ lexer'.limit.2) := by
  rw [jsonLexerFeedChar, feedLoop_consume 1 here now, entered]
  rfl

/-- A character that is consumed: it extends the token, or ends it. -/
theorem consume_spec (sound : lexer.Sound) (here : lexer.state = .state s)
    (now : (jsonLexer s c).lookahead = false) :
    ∃ lexer' calls, jsonLexerFeedChar c false lexer = .ok (lexer', calls) ∧
      lexer'.startState = lexer.startState ∧ lexer'.Sound ∧ (Advanced lexer c lexer' calls ∨
        lexer'.token = [] ∧ ∀ call ∈ calls, Emitted lexer.startState call ∧ ¬ call.type.IsNumber) := by
  obtain ⟨starts, s', here', reads⟩ := sound
  obtain rfl : s = s' := Code.state.inj (here.symm.trans here')
  have ready := sound_ready starts
  have recovering : (lexer.truncated (.state .recovery)).Sound := ⟨starts, .recovery, rfl, .inl ⟨rfl, rfl⟩⟩
  have fed := @jsonLexerFeedChar_of_consume lexer s c
  have kind := entryKind s c
  generalize row : jsonLexer s c = entry at kind now fed
  cases kind with
  | @advance next reads' =>
    obtain ⟨_, more⟩ := goto_of_advance reads'
    have read : scan lexer.startState lexer.token = some s := by
      refine reads.resolve_left fun recovery => ?_
      rw [recovery.1, advance, jsonLexer] at reads'
      split_ifs at reads' <;> cases reads'
    rw [fed here now (enter_reading more)]
    by_cases large : maxTokenSize < (lexer.token ++ [c]).length
    · rw [limit, if_pos large]
      exact ⟨_, _, rfl, rfl, ready, .inr ⟨rfl, forall_mem_singleton.mpr ⟨.oversize large, nofun⟩⟩⟩
    · rw [limit_of_le (not_lt.mp large)]
      refine ⟨_, _, rfl, rfl, ⟨starts, next, rfl, .inr (scan_concat read reads')⟩,
        .inl ⟨rfl, ?_, rfl, s, next, read, here, reads', rfl⟩⟩
      simpa using large
  | skip =>
    rw [fed here now rfl]
    exact ⟨_, _, rfl, rfl, ready, .inr ⟨rfl, nofun⟩⟩
  | recover =>
    rw [fed here now rfl]
    exact ⟨_, _, rfl, rfl, recovering, .inr ⟨rfl, nofun⟩⟩
  | restart => cases now
  | error =>
    rw [fed here now rfl]
    exact ⟨_, _, rfl, rfl, recovering, .inr ⟨rfl, forall_mem_singleton.mpr ⟨.error, nofun⟩⟩⟩
  | @emit t good reading =>
    rw [fed here now (enter_emit good)]
    have read := reads.resolve_left fun recovery => reading recovery.1
    refine ⟨_, _, rfl, rfl, ready, .inr ⟨rfl, forall_mem_singleton.mpr ⟨.consumed read row, ?_⟩⟩⟩
    have member := emit_mem good
    rintro (number | number) <;> cases number <;> simp at member
  | terminal => cases now

theorem start_consumes (starts : initial.IsStart) (c : UInt8) :
    (jsonLexer initial c).lookahead = false := by
  have kind := entryKind initial c
  generalize jsonLexer initial c = entry at kind
  cases kind with
  | restart recovering =>
    subst recovering
    exact absurd starts (by decide)
  | terminal _ reading => exact (starts.elim reading.1 reading.2.1).elim
  | _ => rfl

theorem not_start_of_terminal (entry : jsonLexer s c = .terminal t) : ¬ s.IsStart := by
  intro starts
  have consumes := start_consumes starts c
  rw [entry] at consumes
  cases consumes

/-- After a token that ends before the character, the character starts anew. -/
theorem jsonLexerFeedChar_ahead (starts : lexer.startState.IsStart)
    (here : lexer.state = .state s) (ahead : (jsonLexer s c).lookahead = true)
    (entered : lexer.enter (jsonLexer s c).next = (ready lexer.startState, before)) :
    jsonLexerFeedChar c false lexer =
      (jsonLexerFeedChar c false (ready lexer.startState)).map fun result =>
      (result.1, before ++ result.2) := by
  have consumes := start_consumes starts c
  have again : (ready lexer.startState).state = .state lexer.startState := rfl
  rw [jsonLexerFeedChar, jsonLexerFeedChar, feedLoop_ahead 2 here ahead, entered,
    feedLoop_consume 0 again consumes, feedLoop_consume 1 again consumes]
  simp only [ok_bind]
  simp [Except.map, pure, Except.pure]

/-- A token ended, with the character or before it. -/
structure Restarted (lexer lexer' : Lexer) (calls : List Call) : Prop where
  shorter : lexer'.token.length ≤ lexer.token.length ∨ lexer.state = .state .recovery ∧
    lexer'.token.length ≤ 1
  emitted : ∀ call ∈ calls, Emitted lexer.startState call
  numbers : ∀ call ∈ calls, call.type.IsNumber → call.input = lexer.token

theorem Lexer.enter_terminal (good : t = .integer ∨ t = .float ∨ t = .keyword ∨ t = .interp) :
    lexer.enter (.token t) = (ready lexer.startState, [⟨.token t, lexer.token⟩]) := by
  rcases good with rfl | rfl | rfl | rfl <;> rfl

theorem feedChar_spec (sound : lexer.Sound) (c : UInt8) :
    ∃ lexer' calls, jsonLexerFeedChar c false lexer = .ok (lexer', calls) ∧
    lexer'.startState = lexer.startState ∧
      lexer'.Sound ∧ (Advanced lexer c lexer' calls ∨ Restarted lexer lexer' calls) := by
  obtain ⟨s, here, reads⟩ := sound.reads
  by_cases ahead : (jsonLexer s c).lookahead = true
  · -- the character is read again, in the start state
    obtain ⟨lexer', calls, fed, start, sound', outcome⟩ :=
      consume_spec (sound_ready sound.starts) rfl (start_consumes sound.starts c)
    have length : lexer'.token.length ≤ 1 := by
      rcases outcome with ⟨_, _, token, _⟩ | ⟨token, _⟩ <;> simp [token, ready]
    have emitted : ∀ call ∈ calls, Emitted lexer.startState call ∧ ¬ call.type.IsNumber := by
      rcases outcome with ⟨silent, _⟩ | ⟨_, emitted⟩
      · simp [silent]
      · exact emitted
    have restarts : ∀ {before : List Call}, lexer.enter (jsonLexer s c).next =
        (ready lexer.startState, before) →
        lexer'.token.length ≤ lexer.token.length ∨ lexer.state = .state .recovery ∧
          lexer'.token.length ≤ 1 →
        (∀ call ∈ before, Emitted lexer.startState call ∧ call.input = lexer.token) →
        ∃ lexer' calls, jsonLexerFeedChar c false lexer = .ok (lexer', calls) ∧
          lexer'.startState = lexer.startState ∧
          lexer'.Sound ∧ (Advanced lexer c lexer' calls ∨ Restarted lexer lexer' calls) := by
      intro before entered shorter earlier
      rw [jsonLexerFeedChar_ahead sound.starts here ahead entered, fed]
      refine ⟨_, _, rfl, start, sound', .inr ⟨shorter, forall_mem_append.mpr ⟨?_, ?_⟩,
        forall_mem_append.mpr ⟨?_, ?_⟩⟩⟩
      · exact fun call old => (earlier call old).1
      · exact fun call new => (emitted call new).1
      · exact fun call old _ => (earlier call old).2
      · exact fun call new number => absurd number (emitted call new).2
    have kind := entryKind s c
    generalize row : jsonLexer s c = entry at kind ahead restarts
    cases kind with
    | restart recovering =>
      subst recovering
      exact restarts rfl (.inr ⟨here, length⟩) nofun
    | terminal good reading =>
      have read := reads.resolve_left fun recovery => reading.2.2 recovery.1
      refine restarts (enter_terminal good) (.inl ?_) (forall_mem_singleton.mpr ⟨.terminal read row, rfl⟩)
      · cases token : lexer.token with
        | nil =>
          rw [token] at read
          obtain rfl := some.inj read
          exact absurd sound.starts (by simp [reading.1, reading.2.1])
        | cons first rest => exact length.trans (Nat.succ_le_succ (Nat.zero_le _))
    | _ => cases ahead
  · obtain ⟨lexer', calls, fed, start, sound', outcome⟩ :=
      consume_spec sound here (Bool.not_eq_true _ ▸ ahead)
    refine ⟨lexer', calls, fed, start, sound', outcome.imp_right fun ⟨token, emitted⟩ => ?_⟩
    refine ⟨.inl (by rw [token]; exact Nat.zero_le _), fun call member => (emitted call member).1,
      fun call member number => ?_⟩
    exact absurd number (emitted call member).2

theorem jsonLexerFeed_append (first second : List UInt8) (lexer : Lexer) :
    jsonLexerFeed (first ++ second) lexer = (jsonLexerFeed first lexer >>= fun result =>
      (jsonLexerFeed second result.1).map fun more => (more.1, result.2 ++ more.2)) := by
  induction first generalizing lexer with
  | nil =>
    rw [nil_append, jsonLexerFeed, ok_bind]
    cases jsonLexerFeed second lexer <;> rfl
  | cons c rest ih => ?_
  rw [cons_append, jsonLexerFeed, jsonLexerFeed]
  cases jsonLexerFeedChar c false lexer with
  | error e => rfl
  | ok result => ?_
  simp only [ok_bind, ih]
  cases jsonLexerFeed rest result.1 with
  | error e => rfl
  | ok result' => ?_
  have joined : ((pure (result'.1, result.2 ++ result'.2) : Except LexerAssertion
    (Lexer × List Call)) >>= fun result =>
      (jsonLexerFeed second result.1).map fun more => (more.1, result.2 ++ more.2)) =
      (jsonLexerFeed second result'.1).map fun more => (more.1, result.2 ++ result'.2 ++ more.2) := rfl
  simp only [ok_bind, joined]
  cases jsonLexerFeed second result'.1 with
  | error e => rfl
  | ok more => exact congrArg (fun calls => Except.ok (more.1, calls)) (append_assoc ..).symm

theorem feedChar_advance (here : lexer.state = .state s) (step : advance s c = some next)
    (fits : lexer.token.length < maxTokenSize) :
    jsonLexerFeedChar c false lexer =
    .ok ({ lexer with state := .state next, token := lexer.token ++ [c] }, []) := by
  obtain ⟨row, more⟩ := goto_of_advance step
  have now : (jsonLexer s c).lookahead = false := by
    rw [row]
    rfl
  have entered : { lexer with token := lexer.token ++ [c] }.enter (jsonLexer s c).next =
      ({ lexer with state := .state next, token := lexer.token ++ [c] }, []) := by
    rw [row]
    exact enter_reading more
  rw [jsonLexerFeedChar_of_consume here now entered, limit_of_le]
  · rfl
  · simpa using fits

/-- Characters that all go into the token. -/
theorem jsonLexerFeed_scan (here : lexer.state = .state s) (read : scan s text = some last)
    (fits : lexer.token.length + text.length ≤ maxTokenSize) :
    jsonLexerFeed text lexer =
    .ok ({ lexer with state := .state last, token := lexer.token ++ text }, []) := by
  induction text generalizing lexer s with
  | nil =>
    obtain rfl := some.inj read
    rw [jsonLexerFeed, append_nil, ← here]
  | cons c rest ih => ?_
  obtain ⟨next, step, more⟩ := bind_eq_some_iff.mp read
  rw [length_cons] at fits
  rw [jsonLexerFeed, feedChar_advance here step (by omega), ok_bind]
  dsimp only
  rw [ih rfl more (by simp; omega), ok_bind]
  simp [pure, Except.pure]

theorem jsonLexerFeed_spec (sound : lexer.Sound) (buffer : List UInt8) :
    ∃ lexer' calls, jsonLexerFeed buffer lexer = .ok (lexer', calls) ∧ lexer'.startState =
      lexer.startState ∧ lexer'.Sound ∧ ∀ call ∈ calls, Emitted lexer.startState call := by
  induction buffer generalizing lexer with
  | nil => exact ⟨lexer, [], rfl, rfl, sound, nofun⟩
  | cons c rest ih => ?_
  obtain ⟨next, calls, fed, start, sound', outcome⟩ := feedChar_spec sound c
  obtain ⟨last, more, fedRest, start', sound'', emitted⟩ := ih sound'
  refine ⟨last, calls ++ more, ?_, start'.trans start, sound'', fun call member => ?_⟩
  · exact bind_ok.mpr ⟨_, fed, bind_ok.mpr ⟨_, fedRest, rfl⟩⟩
  rcases mem_append.mp member with old | new
  · rcases outcome with advanced | restarted
    · rw [advanced.silent] at old
      cases old
    · exact restarted.emitted call old
  · exact start ▸ emitted call new

/-- The byte `0xFF` ends every token with an error, and a newline ends the recovery. -/
theorem jsonLexerFeed_resync (starts : initial.IsStart) (s : LexerState) (token : List UInt8) :
    ∃ before text, jsonLexerFeed [0xFF, 0x0A] ⟨initial, .state s, token⟩ =
      .ok (ready initial, before ++ [⟨.token .error, text⟩]) := by
  rcases starts with rfl | rfl
  all_goals
    cases s with
    | zero | expDigits | mantissaDigits | digits | keyword | interp => exact ⟨[_], _, rfl⟩
    | _ => exact ⟨[], _, rfl⟩

theorem Lexer.Sound.resync (sound : lexer.Sound) : ∃ before text, jsonLexerFeed [0xFF, 0x0A] lexer =
    .ok (ready lexer.startState, before ++ [⟨.token .error, text⟩]) := by
  obtain ⟨s, here, -⟩ := sound.reads
  obtain ⟨initial, state, token⟩ := lexer
  obtain rfl := here
  exact jsonLexerFeed_resync sound.starts s token

theorem row_zero (s : LexerState) (reading : s ≠ .start ∧ s ≠ .startInterp) :
    s = .recovery ∧ jsonLexer s 0 = ⟨.state .start, true⟩ ∨ jsonLexer s 0 = .error ∨
      ∃ t, (t = .integer ∨ t = .float ∨ t = .keyword ∨ t = .interp) ∧ jsonLexer s 0 = .terminal t := by
  cases s with
  | start => exact absurd rfl reading.1
  | startInterp => exact absurd rfl reading.2
  | recovery => exact .inl ⟨rfl, rfl⟩
  | dqStringEscape | dqString | sqStringEscape | sqString | expSign | expE | mantissa | sign =>
    exact .inr (.inl rfl)
  | zero | digits => exact .inr (.inr ⟨.integer, by simp, rfl⟩)
  | expDigits | mantissaDigits => exact .inr (.inr ⟨.float, by simp, rfl⟩)
  | keyword => exact .inr (.inr ⟨.keyword, by simp, rfl⟩)
  | interp => exact .inr (.inr ⟨.interp, by simp, rfl⟩)

theorem feedLoop_flush (fuel : Nat) (consumed : Bool) (here : lexer.state = .state s)
    (going : s ≠ lexer.startState) : feedLoop 0 true (fuel + 1) consumed lexer =
      (feedLoop 0 true fuel false (lexer.enter (jsonLexer s 0).next).1 >>= fun result =>
        .ok (result.1, (lexer.enter (jsonLexer s 0).next).2 ++ result.2)) := by
  rw [feedLoop, here]
  simp [going]
  rfl

theorem feedLoop_done (fuel : Nat) (consumed : Bool) (initial : LexerState) :
    feedLoop 0 true (fuel + 1) consumed (ready initial) = .ok (ready initial, []) := by
  rw [feedLoop]
  simp [ready]

theorem feedLoop_flush_spec (sound : lexer.Sound) :
    ∃ calls, feedLoop 0 true 3 false lexer = .ok (ready lexer.startState, calls) ∧
      ∀ call ∈ calls, Emitted lexer.startState call := by
  obtain ⟨s, here, reads⟩ := sound.reads
  have notRecovery : LexerState.recovery ≠ lexer.startState := by
    rcases sound.starts with start | start <;> simp [start]
  by_cases idle : s = lexer.startState
  · have read := reads.resolve_left fun recovery => notRecovery (recovery.1.symm.trans idle)
    have same : lexer = ready lexer.startState := by
      cases lexer with
      | mk initial state token =>
        obtain rfl : token = [] := scan_start read (idle ▸ sound.starts)
        obtain rfl : state = .state initial := here.trans (congrArg Code.state idle)
        rfl
    rw [same, feedLoop_done]
    exact ⟨[], rfl, nofun⟩
  have notStart : ¬ s.IsStart := by
    intro isStart
    rcases reads with ⟨rfl, -⟩ | read
    · exact absurd isStart (by decide)
    · rw [scan_start read isStart] at read
      exact idle (some.inj read).symm
  have recovered : ∀ fuel, feedLoop 0 true (fuel + 2) false (lexer.truncated (.state .recovery)) =
      .ok (ready lexer.startState, []) := by
    intro fuel
    have here' : (lexer.truncated (.state .recovery)).state = .state .recovery := rfl
    rw [feedLoop_flush _ _ here' notRecovery]
    have entered : (lexer.truncated (.state .recovery)).enter (jsonLexer .recovery 0).next =
      (ready lexer.startState, []) := rfl
    rw [entered, feedLoop_done]
    rfl
  rcases row_zero s (not_or.mp notStart) with ⟨rfl, row⟩ | row | ⟨t, good, row⟩
  · have entered : lexer.enter (jsonLexer .recovery 0).next = (ready lexer.startState, []) := rfl
    rw [feedLoop_flush _ _ here idle, entered, feedLoop_done]
    exact ⟨[], rfl, nofun⟩
  · rw [feedLoop_flush _ _ here idle, row]
    have entered : lexer.enter Entry.error.next = (lexer.truncated (.state .recovery),
      [⟨.token .error, lexer.token⟩]) := rfl
    rw [entered, recovered]
    exact ⟨_, rfl, forall_mem_singleton.mpr .error⟩
  · rw [feedLoop_flush _ _ here idle, row]
    have entered : lexer.enter (Entry.terminal t).next =
      (ready lexer.startState, [⟨.token t, lexer.token⟩]) :=
      enter_terminal good
    rw [entered, feedLoop_done]
    refine ⟨_, rfl, forall_mem_singleton.mpr (.terminal (reads.resolve_left fun recovery => ?_) row)⟩
    rw [recovery.1] at row
    cases row

theorem jsonLexerFlush_spec (sound : lexer.Sound) :
    ∃ calls, jsonLexerFlush lexer = .ok (ready lexer.startState, calls ++ [⟨.token .endOfInput, []⟩]) ∧
      ∀ call ∈ calls, Emitted lexer.startState call := by
  obtain ⟨calls, fed, emitted⟩ := feedLoop_flush_spec sound
  refine ⟨calls, ?_, emitted⟩
  have short : (ready lexer.startState).limit = (ready lexer.startState, []) := limit_of_le (Nat.zero_le _)
  rw [jsonLexerFlush, jsonLexerFeedChar, fed, ok_bind]
  dsimp only
  rw [short]
  simp [ready, pure, Except.pure, ok_bind]

end Qemu.Json
