import Qemu.Migration.XbzrleRoundTrip
import Mathlib.Data.List.GetD

/-! The portable encoder scans whole runs, word by word; it behaves as the
byte-by-byte machine that checks its capacity after every length and every run. -/

namespace Qemu.Xbzrle

open Loop List Nat Dst

/-- A scan from `i` stopped at `j`: every byte passed the test, and either the
page ended or the next byte fails it. -/
structure Scanned (test : Nat → Bool) (slen i j : Nat) : Prop where
  start : i ≤ j
  inside : j ≤ slen
  passed : ∀ k, i ≤ k → k < j → test k = true
  stopped : j < slen → test j = false

/-- Where a scan may stand before it stops. -/
structure Scanning (test : Nat → Bool) (slen i run : Nat) (s : Nat × Nat) : Prop where
  start : i ≤ s.1
  inside : s.1 ≤ slen
  passed : ∀ k, i ≤ k → k < s.1 → test k = true
  counted : s.2 = run + (s.1 - i)

/-- Passing a stretch of bytes moves a scan over it. -/
theorem Scanning.extend {slen i run : Nat}
    (state : Scanning test slen i run s) (stride : Nat) (fits : s.1 + stride ≤ slen)
    (all : ∀ k < stride, test (s.1 + k) = true) :
    Scanning test slen i run (s.1 + stride, s.2 + stride) := by
  have start := state.start
  have counted := state.counted
  refine ⟨by omega, fits, fun k above before => ?_, by omega⟩
  rcases lt_or_ge k s.1 with early | late
  · exact state.passed k above early
  · have passed := all (k - s.1) (by omega)
    rwa [Nat.add_sub_cancel' late] at passed

theorem Scanning.ended {slen i j run count : Nat} (state : Scanning test slen i run (j, count))
    (finished : slen ≤ j) : (j, count) = (j, run + (j - i)) ∧ Scanned test slen i j :=
  ⟨congrArg _ state.counted, state.start, state.inside, state.passed,
    fun below => absurd below (by omega)⟩

theorem unaligned_spec (test : Nat → Bool) (slen : Nat) (i run : Nat) (fits : i + res ≤ slen) :
    ∃ left j, unaligned test res i run = (left, j, run + (j - i)) ∧ i ≤ j ∧ j + left = i + res ∧
      (∀ k, i ≤ k → k < j → test k = true) ∧ (left ≠ 0 → test j = false) := by
  induction res generalizing i run with
  | zero =>
    exact ⟨0, i, by simp [unaligned], le_refl i, rfl, fun k above below => by omega, by simp⟩
  | succ res ih => ?_
  rw [unaligned]
  split
  next passed =>
    obtain ⟨left, j, value, above, sum, all, stopped⟩ := ih (i + 1) (run + 1) (by omega)
    refine ⟨left, j, ?_, by omega, by omega, ?_, stopped⟩
    · rw [value, show run + 1 + (j - (i + 1)) = run + (j - i) by omega]
    · intro k atLeast below
      rcases eq_or_lt_of_le atLeast with rfl | later
      · exact passed
      · exact all k later below
  next failed =>
    exact ⟨res + 1, i, by simp, le_refl i, rfl, fun k above below => by omega,
      fun _ => by simpa using failed⟩

section

variable {oldBuf newBuf : List UInt8} {slen : Nat}

theorem loadLong_window (buf : List UInt8) (fits : i + 8 ≤ buf.length) :
    ((buf.drop i).take 8).length = 8 := by
  rw [length_take, length_drop]; omega

theorem window_getD {buf : List UInt8} (inside : k < 8) :
    ((buf.drop i).take 8).getD k 0 = buf.getD (i + k) 0 := by
  simp only [getD_eq_getElem?_getD, getElem?_take, inside, if_true, getElem?_drop]

section

variable (oldLength : oldBuf.length = slen) (newLength : newBuf.length = slen)
include oldLength newLength

theorem loadLong_eq_iff (fits : i + 8 ≤ slen) :
    loadLong oldBuf i = loadLong newBuf i ↔ ∀ k < 8, sameAt oldBuf newBuf (i + k) = true := by
  have oldWindow := loadLong_window oldBuf (show i + 8 ≤ _ by omega)
  have newWindow := loadLong_window newBuf (show i + 8 ≤ _ by omega)
  rw [loadLong, loadLong, ZeroByte.word_eq_iff oldWindow newWindow]
  simp only [sameAt, beq_iff_eq]
  constructor
  · intro same k inside
    rw [← window_getD inside, ← window_getD inside, same]
  · intro same
    apply ext_getElem (oldWindow.trans newWindow.symm)
    intro k below bound
    rw [oldWindow] at below
    have bytes := same k below
    rwa [← window_getD below, ← window_getD below, getD_eq_getElem _ _ (by omega),
      getD_eq_getElem _ _ (by omega)] at bytes

/-- The word test finds whether some byte of the word is unchanged. -/
theorem endsNzrun_iff (fits : i + 8 ≤ slen) :
    endsNzrun oldBuf newBuf i = false ↔ ∀ k < 8, sameAt oldBuf newBuf (i + k) = false := by
  have oldWindow := loadLong_window oldBuf (show i + 8 ≤ _ by omega)
  have newWindow := loadLong_window newBuf (show i + 8 ≤ _ by omega)
  simp only [endsNzrun, loadLong, ZeroByte.word_xor oldWindow newWindow, bne_eq_false_iff_eq]
  rw [ZeroByte.word_test_iff (by simp [oldWindow, newWindow])]
  have byte (k : Nat) (inside : k < 8) :
      (zipWith (· ^^^ ·) ((oldBuf.drop i).take 8) ((newBuf.drop i).take 8))[k]? =
        some (oldBuf.getD (i + k) 0 ^^^ newBuf.getD (i + k) 0) := by
    rw [← window_getD inside, ← window_getD inside, getD_eq_getElem _ _ (by omega),
      getD_eq_getElem _ _ (by omega), getElem?_eq_getElem (by simp [oldWindow, newWindow, inside]),
      getElem_zipWith]
  simp only [sameAt, beq_eq_false_iff_ne]
  constructor
  · intro none k inside same
    apply none
    rw [mem_iff_getElem?]
    exact ⟨k, by rw [byte k inside, same, UInt8.xor_self]⟩
  · intro differ zero
    obtain ⟨k, found⟩ := mem_iff_getElem?.mp zero
    have inside : k < 8 := by
      have := (List.getElem?_eq_some_iff.mp found).1
      simp only [length_zipWith] at this
      omega
    rw [byte k inside, Option.some.injEq, UInt8.xor_eq_zero_iff] at found
    exact differ k inside found

theorem zrunWords_spec {run first count : Nat} (aligned : (slen - i) % 8 = 0)
    (state : Scanning (sameAt oldBuf newBuf) slen first count (i, run)) :
    ∃ j, zrunWords oldBuf newBuf slen i run = (j, count + (j - first)) ∧
    Scanned (sameAt oldBuf newBuf) slen first j := by
  have words := repeatWhile_spec
    (fun s => decide (s.1 < slen) && loadLong oldBuf s.1 == loadLong newBuf s.1)
    (fun s => (s.1 + 8, s.2 + 8))
    (fun s => Scanning (sameAt oldBuf newBuf) slen first count s ∧ (slen - s.1) % 8 = 0)
    (fun s => slen - s.1) (by
      rintro s ⟨state, multiple⟩ more
      simp only [Bool.and_eq_true, decide_eq_true_eq, beq_iff_eq] at more
      obtain ⟨below, equal⟩ := more
      rw [loadLong_eq_iff oldLength newLength (by omega)] at equal
      exact ⟨⟨state.extend 8 (by omega) equal, by omega⟩, by omega⟩)
    ⟨state, aligned⟩ (sub_le _ _)
  have bytes := repeatWhile_spec (fun s => decide (s.1 < slen) && sameAt oldBuf newBuf s.1)
    (fun s => (s.1 + 1, s.2 + 1)) (Scanning (sameAt oldBuf newBuf) slen first count)
    (fun s => slen - s.1) (by
      intro s state more
      simp only [Bool.and_eq_true, decide_eq_true_eq] at more
      refine ⟨state.extend 1 (by omega) fun k one => ?_, by omega⟩
      rw [lt_one_iff.mp one]
      exact more.2)
    words.1.1 (sub_le _ _)
  obtain ⟨state, stop⟩ := bytes
  refine ⟨_, Prod.ext rfl state.counted, state.start, state.inside, state.passed, fun below => ?_⟩
  rw [Bool.and_eq_false_iff, decide_eq_false_iff_not] at stop
  exact stop.resolve_left (not_not.mpr below)

theorem nzrunWords_spec {fuel run first count : Nat} (enough : slen - i ≤ fuel)
    (aligned : (slen - i) % 8 = 0)
    (state : Scanning (fun k => !sameAt oldBuf newBuf k) slen first count (i, run)) :
    ∃ j, nzrunWords oldBuf newBuf slen fuel i run = (j, count + (j - first)) ∧
      Scanned (fun k => !sameAt oldBuf newBuf k) slen first j := by
  induction fuel generalizing i run with
  | zero => exact ⟨i, state.ended (by omega)⟩
  | succ fuel ih => ?_
  by_cases more : i < slen
  · rw [nzrunWords, if_pos more]
    by_cases stops : endsNzrun oldBuf newBuf i = true
    · -- The run ends in this word: the byte loop stops before it leaves it.
      rw [if_pos stops]
      have some : ∃ k < 8, sameAt oldBuf newBuf (i + k) = true := by
        by_contra none
        push Not at none
        have passes := (endsNzrun_iff oldLength newLength (i := i) (by omega)).mpr
          fun k inside => by simpa using none k inside
        simp [stops] at passes
      obtain ⟨k, inside, same⟩ := some
      have bytes := repeatWhile_spec (fun s => !sameAt oldBuf newBuf s.1)
        (fun s => (s.1 + 1, s.2 + 1))
        (fun s => Scanning (fun k => !sameAt oldBuf newBuf k) slen first count s ∧ s.1 ≤ i + k)
        (fun s => i + k - s.1) (by
          rintro s ⟨state, before⟩ differs
          have strict : s.1 ≠ i + k := by
            intro reached
            rw [reached, same] at differs
            simp at differs
          refine ⟨⟨state.extend 1 (by omega) fun k one => ?_, by omega⟩, by omega⟩
          rw [lt_one_iff.mp one]
          exact differs)
        ⟨state, le_add_right i k⟩ (show i + k - i ≤ slen by omega)
      obtain ⟨⟨state, _⟩, stop⟩ := bytes
      exact ⟨_, Prod.ext rfl state.counted, state.start, state.inside, state.passed, fun _ => stop⟩
    · rw [if_neg stops]
      have differ := (endsNzrun_iff oldLength newLength (i := i) (by omega)).mp
        (by simpa using stops)
      have moved := state.extend 8 (by omega) (fun k inside => by simp [differ k inside])
      exact ih (by omega) (by omega) moved
  · rw [nzrunWords, if_neg more]
    exact ⟨i, state.ended (by omega)⟩

end

section

variable (oldLength : oldBuf.length = slen) (newLength : newBuf.length = slen) (run : Nat)
  (inside : i ≤ slen)
include oldLength newLength inside

theorem scanZrun_spec :
    ∃ j, scanZrun oldBuf newBuf slen i run = (j, run + (j - i)) ∧
    Scanned (sameAt oldBuf newBuf) slen i j := by
  obtain ⟨left, j, value, above, sum, passed, stopped⟩ :=
    unaligned_spec (sameAt oldBuf newBuf) slen i run
      (show i + (slen - i) % 8 ≤ slen by omega)
  rw [scanZrun, value]
  by_cases aligned : left = 0
  · simp only [aligned]
    exact zrunWords_spec oldLength newLength (by omega) ⟨above, by omega, passed, rfl⟩
  · exact ⟨j, by simp [aligned], above, by omega, passed, fun _ => stopped aligned⟩

theorem scanNzrun_spec :
    ∃ j, scanNzrun oldBuf newBuf slen i run = (j, run + (j - i)) ∧
      Scanned (fun k => !sameAt oldBuf newBuf k) slen i j := by
  obtain ⟨left, j, value, above, sum, passed, stopped⟩ :=
    unaligned_spec (fun k => !sameAt oldBuf newBuf k) slen i run
      (show i + (slen - i) % 8 ≤ slen by omega)
  rw [scanNzrun, value]
  by_cases aligned : left = 0
  · simp only [aligned]
    exact nzrunWords_spec oldLength newLength (by omega) (by omega)
      ⟨above, by omega, passed, rfl⟩
  · exact ⟨j, by simp [aligned], above, by omega, passed, fun _ => stopped aligned⟩

end

end

/-- The portable encoder checks after every length and every run. -/
def portableChecks : Checks := ⟨fun _ => false, true, fun _ => true⟩

/-- What the portable encoder still does from the top of a pass. -/
def portableFrom (oldBuf newBuf : List UInt8) (dlen : Nat) (s : Scan) : Encoded :=
  if s.i < oldBuf.length then
    checked true dlen s.dst
      (emit portableChecks dlen s.i (.zero 0) s.dst ((oldBuf.zip newBuf).drop s.i))
  else s.dst.finish

section

variable {oldBuf newBuf : List UInt8} {dlen : Nat}

theorem passable_portable (i j : Nat) (dst : Dst) : Passable portableChecks dlen i j dst :=
  fun _ _ _ checking => nomatch checking

/-- A finished nonzero run is written, and the next pass begins. -/
theorem portable_nonzero (length : oldBuf.length = newBuf.length) (bytes : List UInt8)
    (dst : Dst) (inside : e ≤ oldBuf.length) (same : e < oldBuf.length → sameAt oldBuf newBuf e = true) :
    emit portableChecks dlen e (.nonzero bytes) dst ((oldBuf.zip newBuf).drop e) =
      flushed dlen bytes dst fun dst => portableFrom oldBuf newBuf dlen ⟨e, dst⟩ := by
  rcases eq_or_lt_of_le inside with rfl | part
  · rw [drop_pairs_end length, emit]
    simp [portableFrom]
  have next (dst : Dst) : emit portableChecks dlen (e + 1) (.zero 1) dst
      ((oldBuf.zip newBuf).drop (e + 1)) =
      emit portableChecks dlen e (.zero 0) dst ((oldBuf.zip newBuf).drop e) := by
    rw [drop_pairs length part, emit, if_pos (by simpa [sameAt] using same part)]
    rfl
  rw [emit_nonzero_same length bytes dst part (same part)]
  simp only [portableFrom, part, next]
  rfl

structure TopOfPass (oldBuf newBuf : List UInt8) (s : Scan) : Prop where
  inside : s.i ≤ oldBuf.length
  fresh : s.i = 0 → s.dst.d = 0
  bounded : 0 < s.i → s.i < oldBuf.length → sameAt oldBuf newBuf s.i = true

/-- One pass writes one run, as the byte-by-byte machine does. -/
theorem encodePass_spec (dlen : Nat) (length : oldBuf.length = newBuf.length)
    (short : oldBuf.length ≤ 0x3fff) (top : TopOfPass oldBuf newBuf s) :
    Decides (fun later => TopOfPass oldBuf newBuf later ∧ s.i < later.i ∧
      portableFrom oldBuf newBuf dlen later = portableFrom oldBuf newBuf dlen s)
      (· = portableFrom oldBuf newBuf dlen s) (encodePass oldBuf newBuf oldBuf.length dlen s) := by
  by_cases more : s.i < oldBuf.length
  · by_cases full : s.dst.d + 2 > dlen
    · simp [encodePass, portableFrom, checked, more, full, Decides]
    obtain ⟨j, zrun, zeros⟩ := scanZrun_spec rfl length.symm 0 top.inside
    have start := zeros.start
    have inside := zeros.inside
    have skipped := @emit_skip_same _ _ portableChecks dlen length _ _ 0 s.dst zeros.start
      zeros.inside zeros.passed (passable_portable _ _ _)
    rw [zero_add] at zrun skipped
    have pass : portableFrom oldBuf newBuf dlen s =
        emit portableChecks dlen j (.zero (j - s.i)) s.dst ((oldBuf.zip newBuf).drop j) := by
      rw [portableFrom, if_pos more, checked, if_neg (by simpa using full), skipped]
    by_cases last : j = oldBuf.length
    · rw [pass, last, drop_pairs_end length, emit]
      by_cases unchanged : j - s.i = oldBuf.length
      · have none := top.fresh (by omega)
        simp only [encodePass, more, full, zrun, unchanged]
        rw [finish, none]
        rfl
      · simp only [encodePass, more, if_true, full, if_false, zrun, last]
        rw [if_neg (by omega)]
        rfl
    obtain ⟨e, nzrun, changed⟩ := scanNzrun_spec rfl length.symm 0 zeros.inside
    have differ : ∀ k, j ≤ k → k < e → sameAt oldBuf newBuf k = false :=
      fun k above below => by simpa using changed.passed k above below
    have after : j < e := by
      rcases eq_or_lt_of_le changed.start with rfl | later
      · have first := zeros.stopped (by omega)
        have stops := changed.stopped (by omega)
        simp [first] at stops
      · exact later
    have ended := changed.inside
    rw [zero_add] at nzrun
    have copied : ((newBuf.drop j).take (e - j)).length = e - j := by
      rw [length_take, length_drop]; omega
    have written := @emit_zero_run _ _ portableChecks dlen length _ _ (j - s.i) s.dst
      after changed.inside differ (passable_portable _ _ _)
    have first := putUleb_eq s.dst (show j - s.i ≤ 0x3fff by omega)
    have second := putUleb_eq (s.dst.put (uleb (j - s.i))) (show e - j ≤ 0x3fff by omega)
    simp only [encodePass, more, full, if_false, zrun, show j - s.i ≠ oldBuf.length by omega,
      last, first, nzrun, second]
    rw [pass, written, checked_pass _ (by simp [portableChecks]), checked, portableChecks]
    by_cases crowded : (s.dst.put (uleb (j - s.i))).d + 2 > dlen
    · simp only [crowded, if_true, and_self]
      rfl
    simp only [crowded, if_false, and_false]
    rw [← portableChecks, portable_nonzero length _ _ changed.inside
      (fun below => by simpa using changed.stopped below), flushed, copied]
    by_cases large : ((s.dst.put (uleb (j - s.i))).put (uleb (e - j))).d + (e - j) > dlen
    · simp only [large, if_true]
      rfl
    · simp only [large]
      refine ⟨⟨changed.inside, fun zero => by simp only at zero; omega, fun _ below => ?_⟩,
        by simp only; omega, rfl⟩
      simpa using changed.stopped below
  · simp [encodePass, portableFrom, more, Decides]

/-- The portable encoder is the byte-by-byte machine with its own checks. -/
theorem encodeBufferInt_eq (length : oldBuf.length = newBuf.length)
    (aligned : oldBuf.length % 8 = 0) (short : oldBuf.length ≤ 0x3fff) :
    encodeBufferInt oldBuf newBuf dlen = some (portableFrom oldBuf newBuf dlen ⟨0, empty⟩) := by
  have total : ∃ encoded, run (encodePass oldBuf newBuf oldBuf.length dlen) (oldBuf.length + 1)
      ⟨0, empty⟩ = some encoded ∧
      encoded = portableFrom oldBuf newBuf dlen ⟨0, empty⟩ := by
    refine run_spec
      (fun s => TopOfPass oldBuf newBuf s ∧
        portableFrom oldBuf newBuf dlen s = portableFrom oldBuf newBuf dlen ⟨0, empty⟩)
      (fun s => oldBuf.length - s.i) ?_
      ⟨⟨zero_le _, fun _ => rfl, fun moved => absurd moved (lt_irrefl 0)⟩, rfl⟩
      (lt_succ_of_le (sub_le _ _))
    rintro s ⟨top, same⟩
    rw [← same]
    refine (encodePass_spec dlen length short top).imp fun later ⟨next, further, kept⟩ =>
      ⟨⟨next, kept⟩, ?_⟩
    have inside := next.inside
    omega
  obtain ⟨encoded, ran, rfl⟩ := total
  simp [encodeBufferInt, aligned, ran]

/-- With room for two more bytes and a check after every length and run, no store
leaves the destination. -/
theorem emit_portable_inside (inside : dst.Inside dlen) (room : dst.d + 2 ≤ dlen) :
    ∀ store ∈ (emit portableChecks dlen i pending dst pairs).stores, store.1 < dlen := by
  have putInside {dst : Dst} (bytes : List UInt8) (inside : dst.Inside dlen)
      (fits : dst.d + bytes.length ≤ dlen) : (dst.put bytes).Inside dlen := by
    rcases bytes.eq_nil_or_concat with rfl | ⟨_, _, rfl⟩
    · simpa using inside
    · exact (inside_put_iff (by simp)).mpr ⟨inside, fits⟩
  have lengthInside {dst : Dst} (n : Nat) (inside : dst.Inside dlen) (room : dst.d + 2 ≤ dlen) :
      (dst.put (uleb n)).Inside dlen :=
    putInside _ inside (by have := uleb_length_le n; omega)
  induction pairs generalizing i pending dst with
  | nil =>
    cases pending with
    | zero run => exact inside
    | nonzero bytes =>
      simp only [emit, flushed]
      split
      · exact lengthInside _ inside room
      · exact putInside _ (lengthInside _ inside room) (by omega)
  | cons pair rest ih =>
    obtain ⟨old, new⟩ := pair
    cases pending with
    | zero run =>
      simp only [emit, checked, portableChecks, if_false, Bool.false_eq_true, false_and, true_and]
      split
      · exact ih inside room
      · split
        · exact lengthInside _ inside room
        · exact ih (lengthInside _ inside room) (by omega)
    | nonzero bytes =>
      simp only [emit, checked, flushed, portableChecks, if_false, Bool.false_eq_true, false_and,
        true_and]
      split
      · split
        · exact lengthInside _ inside room
        · have whole := putInside bytes (lengthInside bytes.length inside room) (by omega)
          split
          · exact whole
          · exact ih whole (by omega)
      · exact ih inside room

theorem portable_ok (ok : (portableFrom oldBuf newBuf dlen ⟨0, empty⟩).ret ≠ -1) :
    portableFrom oldBuf newBuf dlen ⟨0, empty⟩ =
    (empty.put (remainder (.zero 0) (oldBuf.zip newBuf))).finish := by
  rw [portableFrom] at ok ⊢
  split at ok
  next some =>
    rw [if_pos some]
    have passed := checked_ok ok
    rw [passed] at ok ⊢
    exact emit_ok ok
  next none =>
    rw [if_neg none, length_eq_zero_iff.mp (Nat.eq_zero_of_not_pos none), zip_nil_left, remainder,
      put_nil]

theorem portable_ret_le : (portableFrom oldBuf newBuf dlen ⟨0, empty⟩).ret ≤ dlen := by
  have empty : empty.d ≤ dlen := zero_le _
  rw [portableFrom, checked]
  split
  · split
    · simp only [overflow]; omega
    · exact emit_ret_le fun _ _ => empty
  · simp only [finish]; omega

theorem remainder_eq_nil_iff (length : oldBuf.length = newBuf.length) :
    remainder (.zero 0) (oldBuf.zip newBuf) = [] ↔ oldBuf = newBuf := by
  rw [remainder_zero_eq_nil_iff]
  constructor
  · intro equal
    have all := equal_suffix (d := 0) length (by simpa using equal)
    simpa using all
  · rintro rfl pair member
    rw [zip_eq_zipWith, zipWith_self] at member
    obtain ⟨byte, _, rfl⟩ := mem_map.mp member
    rfl

/-- The portable encoder never stores past its destination; what it returns is
the length of an encoding that the decoder turns back into the new page. -/
theorem encodeBufferInt_round_trip (oldBuf newBuf : List UInt8) (dlen : Nat)
    (length : oldBuf.length = newBuf.length) (aligned : oldBuf.length % 8 = 0)
    (short : oldBuf.length ≤ 0x3fff) :
    ∃ encoded, encodeBufferInt oldBuf newBuf dlen = some encoded ∧
    (∀ store ∈ encoded.stores, store.1 < dlen) ∧
      (0 ≤ encoded.ret → encoded.ret ≤ dlen ∧ (encoded.ret = 0 ↔ oldBuf = newBuf) ∧
        ∃ decoded, decodeBuffer encoded.bytes oldBuf = some decoded ∧ 0 ≤ decoded.ret ∧
        decoded.dst = newBuf) := by
  refine ⟨_, encodeBufferInt_eq length aligned short, ?_, fun success => ?_⟩
  · simp only [portableFrom, checked, true_and]
    split
    · split
      · exact inside_empty dlen
      · exact emit_portable_inside (inside_empty dlen) (by omega)
    · exact inside_empty dlen
  have ok := portable_ok (show (portableFrom oldBuf newBuf dlen ⟨0, empty⟩).ret ≠ -1 by omega)
  refine ⟨portable_ret_le, ?_, ?_⟩
  · rw [ok, ← remainder_eq_nil_iff length, finish, empty]
    simp
  · rw [ok, bytes_finish]
    exact decodeBuffer_remainder length short

/-- A page with a changed byte in front and one in the middle of a word. -/
theorem encodeBufferInt_round_trip_at_two_runs :
    ∃ encoded, encodeBufferInt [1, 2, 3, 4, 5, 6, 7, 8] [9, 2, 3, 4, 0, 0, 7, 8] 16 = some encoded ∧
      (∀ store ∈ encoded.stores, store.1 < 16) ∧ (0 ≤ encoded.ret → encoded.ret ≤ 16 ∧
        (encoded.ret = 0 ↔ [1, 2, 3, 4, 5, 6, 7, 8] = ([9, 2, 3, 4, 0, 0, 7, 8] : List UInt8)) ∧
        ∃ decoded, decodeBuffer encoded.bytes [1, 2, 3, 4, 5, 6, 7, 8] = some decoded ∧
          0 ≤ decoded.ret ∧ decoded.dst = [9, 2, 3, 4, 0, 0, 7, 8]) :=
  encodeBufferInt_round_trip [1, 2, 3, 4, 5, 6, 7, 8] [9, 2, 3, 4, 0, 0, 7, 8] 16 rfl rfl (by decide)

end

end Qemu.Xbzrle
