import Qemu.Migration.XbzrleRuns

namespace Qemu.Xbzrle

open Loop List Nat

theorem continues_iff (byte : UInt8) : byte &&& 0x80 = 0 ↔ byte.toNat < 128 := by
  obtain ⟨⟨⟨value, bound⟩⟩⟩ := byte
  revert bound value
  decide +kernel

theorem payload_toNat (byte : UInt8) : (byte &&& 0x7f).toNat = byte.toNat % 128 := by
  exact and_two_pow_sub_one_eq_mod byte.toNat 7

theorem uleb_small (one : n < 0x80) : uleb n = [UInt8.ofNat n] := by
  simp [uleb, uleb128EncodeSmall, one, show n ≤ 0x3fff by omega]

theorem uleb_large (two : 0x80 ≤ n) (small : n ≤ 0x3fff) :
    uleb n = [UInt8.ofNat (n % 128 + 128), UInt8.ofNat (n / 128)] := by
  have low : n &&& 0x7f = n % 128 := and_two_pow_sub_one_eq_mod n 7
  have marked : n % 128 ||| 0x80 = n % 128 + 128 := by
    rw [Nat.or_comm, Nat.add_comm]
    exact (two_pow_add_eq_or_of_lt (i := 7) (mod_lt n (by decide)) 1).symm
  simp [uleb, uleb128EncodeSmall, small, show ¬ n < 0x80 by omega, low, marked, shiftRight_eq_div_pow]

theorem uleb128DecodeSmall_uleb (small : n ≤ 0x3fff)
    (placed : src.drop i = uleb n ++ rest) :
    uleb128DecodeSmall src i = some (n, (uleb n).length) := by
  have byte (k : Nat) : src.getD (i + k) 0 = (uleb n ++ rest).getD k 0 := by
    rw [← placed, getD_eq_getElem?_getD, getD_eq_getElem?_getD, getElem?_drop]
  have first := byte 0
  have second := byte 1
  rw [add_zero] at first
  simp only [uleb128DecodeSmall, first, second, continues_iff]
  rcases lt_or_ge n 0x80 with one | two
  · have value : (UInt8.ofNat n).toNat = n := by rw [UInt8.toNat_ofNat']; omega
    simp [uleb_small one, value, one]
  have low : (UInt8.ofNat (n % 128 + 128)).toNat = n % 128 + 128 := by
    rw [UInt8.toNat_ofNat']; omega
  have high : (UInt8.ofNat (n / 128)).toNat = n / 128 := by
    rw [UInt8.toNat_ofNat']; omega
  have joined : (n % 128 + 128) % 128 ||| (n / 128) <<< 7 = n := by
    have := two_pow_add_eq_or_of_lt (i := 7) (mod_lt n (by decide)) (n / 128)
    rw [Nat.or_comm, shiftLeft_eq, Nat.mul_comm, add_mod_right, mod_mod, ← this]
    exact div_add_mod n 128
  simp only [uleb_large two small, cons_append, getD_cons_zero, getD_cons_succ,
    low, payload_toNat, length_cons, length_nil, high, joined,
    show ¬ n % 128 + 128 < 128 by omega, if_false]
  rw [if_neg (not_not.mpr ((continues_iff _).mpr (by omega)))]

section

variable {old new : List UInt8}

/-- The destination while it is being patched, with what is left to decode. -/
structure Patching (old new src : List UInt8) (s : Cursor) : Prop where
  inside : s.i ≤ src.length
  reached : s.d ≤ old.length
  left : src.drop s.i = remainder (.zero 0) ((old.zip new).drop s.d)
  patched : s.dst = new.take s.d ++ old.drop s.d
  started : s.i ≠ 0 → ∀ pair ∈ ((old.zip new).drop s.d).head?, pair.1 = pair.2

variable (length : old.length = new.length)
include length

theorem take_drop_zip (d count : Nat) :
    (((old.zip new).drop d).take count).map Prod.snd = (new.drop d).take count := by
  rw [map_take, map_drop, map_snd_zip (by omega)]

theorem equal_suffix {d : Nat}
    (equal : ∀ pair ∈ (old.zip new).drop d, pair.1 = pair.2) : old.drop d = new.drop d := by
  have drops : (old.zip new).drop d = (old.drop d).zip (new.drop d) := drop_zipWith
  rw [drops] at equal
  have fst : ((old.drop d).zip (new.drop d)).map Prod.fst = old.drop d := map_fst_zip (by simp [length])
  have snd : ((old.drop d).zip (new.drop d)).map Prod.snd = new.drop d := map_snd_zip (by simp [length])
  exact fst.symm.trans ((map_congr_left equal).trans snd)

theorem memcpy_patched {d zeros count : Nat}
    (equal : (old.drop d).take zeros = (new.drop d).take zeros) (fits : d + zeros + count ≤ old.length) :
    memcpy (new.take d ++ old.drop d) (d + zeros) ((new.drop (d + zeros)).take count) =
      new.take (d + zeros + count) ++ old.drop (d + zeros + count) := by
  have width : (new.take d).length = d := by rw [length_take]; omega
  have copied : ((new.drop (d + zeros)).take count).length = count := by
    rw [length_take, length_drop]; omega
  have front : (new.take d ++ old.drop d).take (d + zeros) = new.take (d + zeros) := by
    rw [take_append, width, take_of_length_le (by omega), Nat.add_sub_cancel_left, equal, take_add]
  have back : (new.take d ++ old.drop d).drop (d + zeros + count) = old.drop (d + zeros + count) := by
    rw [drop_append, drop_eq_nil_of_le (by omega), drop_drop, nil_append]
    congr 1
    omega
  rw [memcpy, copied, front, back, take_add (i := d + zeros)]

/-- What a pass finds when something is left: a run in the source and in the pages. -/
structure RunAt (old new src : List UInt8) (i d zeros count : Nat) : Prop where
  lengths : src.drop i = uleb zeros ++ (uleb count ++ ((new.drop (d + zeros)).take count ++
    remainder (.zero 0) ((old.zip new).drop (d + zeros + count))))
  equal : (old.drop d).take zeros = (new.drop d).take zeros
  fits : d + zeros + count ≤ old.length
  positive : 0 < count
  stops : ∀ pair ∈ ((old.zip new).drop (d + zeros + count)).head?, pair.1 = pair.2
  starts : zeros = 0 → ∃ pair ∈ ((old.zip new).drop d).head?, pair.1 ≠ pair.2

theorem Patching.runAt (state : Patching old new src s) (more : s.i < src.length) :
    ∃ zeros count, RunAt old new src s.i s.d zeros count := by
  have differs : remainder (.zero 0) ((old.zip new).drop s.d) ≠ [] := by
    rw [← state.left]
    exact fun empty => absurd (drop_eq_nil_iff.mp empty) (by omega)
  obtain ⟨sames, diffs, rest, pairs, equal, some, starts, stops, value⟩ := remainder_zero_split 0 differs
  have total := congrArg List.length pairs
  simp only [length_drop, length_zip, length_append] at total
  have positive : 0 < diffs.length := length_pos_iff.mpr some
  have middle : (old.zip new).drop (s.d + sames.length) = diffs ++ rest := by
    rw [← drop_drop, pairs, drop_left]
  have tail : (old.zip new).drop (s.d + sames.length + diffs.length) = rest := by
    rw [← drop_drop, middle, drop_left]
  have copied : diffs.map Prod.snd = (new.drop (s.d + sames.length)).take diffs.length := by
    rw [← take_drop_zip length, middle, take_left]
  refine ⟨sames.length, diffs.length, ?_, ?_, by omega, positive, by rw [tail]; exact stops, ?_⟩
  · rw [state.left, value, tail, ← copied]
    simp
  · have drops : ((old.drop s.d).zip (new.drop s.d)).take sames.length = sames := by
      have aligned : (old.drop s.d).zip (new.drop s.d) = sames ++ (diffs ++ rest) :=
        drop_zipWith.symm.trans pairs
      rw [aligned, take_left]
    have fst := congrArg (map Prod.fst) drops
    have snd := congrArg (map Prod.snd) drops
    rw [map_take, map_fst_zip (by simp [length])] at fst
    rw [map_take, map_snd_zip (by simp [length])] at snd
    rw [fst, snd]
    exact map_congr_left equal
  · intro none
    rw [pairs, length_eq_zero_iff.mp none]
    obtain ⟨pair, others, shape⟩ := exists_cons_of_ne_nil some
    rw [shape] at starts ⊢
    exact ⟨pair, rfl, starts pair rfl⟩

/-- Each pass decodes one run of the encoding. -/
theorem decodePass_patching (short : old.length ≤ 0x3fff)
    (state : Patching old new src s) :
    Decides (fun later => Patching old new src later ∧ src.length - later.i < src.length - s.i)
      (fun decoded => 0 ≤ decoded.ret ∧ decoded.dst = new) (decodePass src s) := by
  by_cases more : s.i < src.length
  · obtain ⟨zeros, count, found⟩ := state.runAt length more
    have fits := found.fits
    have positive := found.positive
    have copied : ((new.drop (s.d + zeros)).take count).length = count := by
      rw [length_take, length_drop]; omega
    have total := congrArg List.length found.lengths
    simp only [length_drop, length_append] at total
    have first := uleb128DecodeSmall_uleb (by omega) found.lengths
    have second : src.drop (s.i + (uleb zeros).length) = uleb count ++
        ((new.drop (s.d + zeros)).take count ++
          remainder (.zero 0) ((old.zip new).drop (s.d + zeros + count))) := by
      rw [← drop_drop, found.lengths, drop_left]
    have third : src.drop (s.i + (uleb zeros).length + (uleb count).length) =
        (new.drop (s.d + zeros)).take count ++
        remainder (.zero 0) ((old.zip new).drop (s.d + zeros + count)) := by
      rw [← drop_drop, second, drop_left]
    have bytes : (src.drop (s.i + (uleb zeros).length + (uleb count).length)).take count =
        (new.drop (s.d + zeros)).take count := by
      rw [third, take_left' copied]
    have capacity : s.dst.length = old.length := by
      rw [state.patched, length_append, length_take, length_drop]
      omega
    have twoBytes : 0 < (uleb count).length := length_pos_iff.mpr (uleb_ne_nil (by omega))
    have separated : ¬ (s.i ≠ 0 ∧ zeros = 0) := by
      rintro ⟨moved, none⟩
      obtain ⟨pair, member, differs⟩ := found.starts none
      exact differs (state.started moved pair member)
    have pass : decodePass src s = some (.next ⟨s.i + (uleb zeros).length + (uleb count).length + count,
        s.d + zeros + count, memcpy s.dst (s.d + zeros) ((new.drop (s.d + zeros)).take count)⟩) := by
      simp [decodePass, more, first, separated,
        uleb128DecodeSmall_uleb (show count ≤ 0x3fff by omega) second,
        bytes, capacity, show ¬ src.length - s.i < 2 by omega, show ¬ s.d + zeros > old.length by omega,
        show ¬ src.length - (s.i + (uleb zeros).length) < 2 by omega, show count ≠ 0 by omega,
        show ¬ (s.d + zeros + count > old.length ∨
          s.i + (uleb zeros).length + (uleb count).length + count > src.length) by omega]
    rw [pass]
    refine ⟨⟨by simp only; omega, fits, ?_, ?_, fun _ => found.stops⟩, by simp only; omega⟩
    · simp only
      rw [← drop_drop, third, drop_left' copied]
    · rw [state.patched]
      exact memcpy_patched length found.equal fits
  · rw [decodePass, if_neg more]
    refine ⟨Int.natCast_nonneg _, ?_⟩
    have done : remainder (.zero 0) ((old.zip new).drop s.d) = [] := by
      rw [← state.left]
      exact drop_eq_nil_iff.mpr (by omega)
    rw [state.patched, equal_suffix length (remainder_zero_eq_nil_iff.mp done), take_append_drop]

/-- The decoder turns the old page into the new one. -/
theorem decodeBuffer_remainder (short : old.length ≤ 0x3fff) :
    ∃ decoded, decodeBuffer (remainder (.zero 0) (old.zip new)) old = some decoded ∧
      0 ≤ decoded.ret ∧ decoded.dst = new := by
  refine run_spec (Patching old new _)
    (fun s : Cursor => (remainder (.zero 0) (old.zip new)).length - s.i)
    (fun s state => decodePass_patching length short state) ?_ (lt_succ_of_le (sub_le _ _))
  exact {
    inside := zero_le _
    reached := zero_le _
    left := rfl
    patched := rfl
    started := fun moved => absurd rfl moved }

end

end Qemu.Xbzrle
