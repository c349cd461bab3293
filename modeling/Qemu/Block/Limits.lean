import Qemu.Block.Io

namespace Qemu.Block

open Transfer List

theorem alignDown_dvd (n align : Nat) : align ∣ alignDown n align := Dvd.intro_left _ rfl

theorem alignDown_le (n align : Nat) : alignDown n align ≤ n := Nat.div_mul_le_self n align

theorem le_alignDown (multiple : align ∣ m) (le : m ≤ n) : m ≤ alignDown n align := by
  obtain ⟨k, rfl⟩ := multiple
  rcases Nat.eq_zero_or_pos align with rfl | pos
  · simp
  · rw [Nat.mul_comm align k]
    exact Nat.mul_le_mul_right align ((Nat.le_div_iff_mul_le pos).mpr (by rwa [Nat.mul_comm]))

theorem roundUp_dvd (n align : Nat) : align ∣ roundUp n align := Dvd.intro_left _ rfl

theorem le_roundUp (n : Nat) (pos : 0 < align) : n ≤ roundUp n align := by
  have above := Nat.lt_div_mul_add (a := n + align - 1) pos
  rw [roundUp]
  omega

theorem roundUp_le (pos : 0 < align) (multiple : align ∣ m) (above : n ≤ m) : roundUp n align ≤ m := by
  obtain ⟨k, rfl⟩ := multiple
  rw [Nat.mul_comm align k]
  refine Nat.mul_le_mul_right align ?_
  rw [Nat.div_le_iff_le_mul_add_pred pos]
  omega

theorem dvd_min {unit a b : Nat} (first : unit ∣ a) (second : unit ∣ b) : unit ∣ min a b := by
  rcases min_choice a b with same | same <;> rw [same] <;> assumption

namespace Node

variable (node : Node)

theorem align_power : ∃ k ≤ 30, node.align = 2 ^ k := node.limits.powerOfTwo

theorem align_pos : 0 < node.align := by
  obtain ⟨k, -, power⟩ := node.align_power
  exact power ▸ Nat.two_pow_pos k

theorem align_le : node.align ≤ 2 ^ 30 := by
  obtain ⟨k, small, power⟩ := node.align_power
  exact power ▸ Nat.pow_le_pow_right (by norm_num) small

theorem align_dvd_maxTransfer : node.align ∣ node.maxTransfer := alignDown_dvd _ _

theorem le_minNonZero_maxTransfer (large : node.align ≤ bound) :
    node.align ≤ minNonZero node.limits.maxTransfer bound := by
  have pos := node.align_pos
  unfold minNonZero
  split
  · exact large
  · rw [if_neg (by omega)]
    exact le_min (Nat.le_of_dvd (by omega) node.limits.transferAligned) large

theorem maxTransfer_pos : 0 < node.maxTransfer := by
  have large : node.align ≤ intMax := node.align_le.trans (by decide)
  have le : node.align ≤ node.maxTransfer := le_alignDown dvd_rfl (node.le_minNonZero_maxTransfer large)
  exact node.align_pos.trans_le le

theorem align_dvd_zeroAlignment : node.align ∣ node.zeroAlignment := by
  unfold zeroAlignment
  rcases max_choice node.limits.pwriteZeroesAlignment node.align with same | same <;> rw [same]
  exact node.limits.zeroesAligned

theorem zeroAlignment_pos : 0 < node.zeroAlignment := node.align_pos.trans_le (le_max_right _ _)

theorem zeroAlignment_le_maxWriteZeroes : node.zeroAlignment ≤ node.maxWriteZeroes := by
  refine le_alignDown dvd_rfl ?_
  have room := node.limits.zeroesRoom
  have small : node.zeroAlignment ≤ 2 ^ 63 - 1 :=
    max_le (node.limits.zeroesInt.trans (by decide)) (node.align_le.trans (by decide))
  unfold minNonZero
  split
  · exact small
  next nonzero => exact le_min (room.resolve_left nonzero) small

theorem align_dvd_maxWriteZeroes : node.align ∣ node.maxWriteZeroes :=
  node.align_dvd_zeroAlignment.trans (alignDown_dvd _ _)

theorem maxZeroTransfer_pos : 0 < node.maxZeroTransfer := by
  unfold maxZeroTransfer minNonZero
  split
  · decide
  · exact lt_min (by omega) (by decide)

/-- The fallback writes whole blocks exactly if a block fits into its buffer. -/
theorem align_dvd_maxZeroTransfer_iff : node.align ∣ node.maxZeroTransfer ↔ node.align ≤ 2 ^ 24 := by
  obtain ⟨k, -, power⟩ := node.align_power
  constructor
  · intro multiple
    have le : node.maxZeroTransfer ≤ 2 ^ 24 := by
      unfold maxZeroTransfer minNonZero
      split
      · exact le_rfl
      · exact min_le_right _ _
    exact (Nat.le_of_dvd node.maxZeroTransfer_pos multiple).trans le
  · intro small
    have whole : node.align ∣ maxBounceBuffer := by
      rw [power]
      rw [power] at small
      exact Nat.pow_dvd_pow 2 ((Nat.pow_le_pow_iff_right (by norm_num)).mp small)
    unfold maxZeroTransfer minNonZero
    split
    · exact whole
    · exact dvd_min node.limits.transferAligned whole

end Node

variable {bytes : Nat}

theorem Node.checkAligned_iff {node : Node} :
    node.checkAligned offset bytes = true ↔ node.align ∣ offset ∧ node.align ∣ bytes := by
  simp [Node.checkAligned, Nat.dvd_iff_mod_eq_zero]

section

variable {qiov : Qiov}

theorem bdrvCheckQiovRequest_zero {offset bytes qiovOffset : Nat} {qiov : Option Qiov}
    (range : offset + bytes ≤ bdrvMaxLength)
    (window : ∀ vector, qiov = some vector → qiovOffset + bytes ≤ iovSize vector) :
    bdrvCheckQiovRequest offset bytes qiov qiovOffset = 0 := by
  unfold bdrvCheckQiovRequest
  rw [if_neg (by omega), if_neg (by omega), if_neg (by omega), if_neg (by omega), if_neg (by omega)]
  split
  · rfl
  next vector =>
    have fits := window vector rfl
    rw [if_neg (by omega), if_neg (by omega)]

theorem not_bdrvCheckQiovRequest_neg
    (range : offset + bytes ≤ bdrvMaxLength) (fits : qiovOffset + bytes ≤ iovSize qiov) :
    ¬ bdrvCheckQiovRequest offset bytes (some qiov) qiovOffset < 0 := by
  rw [bdrvCheckQiovRequest_zero range (by rintro _ ⟨⟩; exact fits)]
  decide

theorem bdrvCheckQiovRequest_accepts {offset bytes : Int} {qiov : Option Qiov}
    (accepted : ¬ bdrvCheckQiovRequest offset bytes qiov qiovOffset < 0) :
    0 ≤ offset ∧ 0 ≤ bytes ∧ offset + bytes ≤ bdrvMaxLength ∧
      ∀ vector, qiov = some vector → qiovOffset + bytes ≤ iovSize vector := by
  have error : -eio < 0 := by decide
  unfold bdrvCheckQiovRequest at accepted
  split at accepted
  · exact absurd error accepted
  split at accepted
  · exact absurd error accepted
  split at accepted
  · exact absurd error accepted
  split at accepted
  · exact absurd error accepted
  split at accepted
  · exact absurd error accepted
  refine ⟨by omega, by omega, by omega, ?_⟩
  rintro vector rfl
  dsimp only at accepted
  split at accepted
  · exact absurd error accepted
  split at accepted
  · exact absurd error accepted
  omega

theorem bdrvCheckRequest32_accepts {offset bytes : Int}
    (accepted : ¬ bdrvCheckRequest32 offset bytes (some qiov) qiovOffset < 0) :
    0 ≤ offset ∧ 0 ≤ bytes ∧ offset + bytes ≤ bdrvMaxLength ∧ bytes ≤ bdrvRequestMaxBytes ∧
      qiovOffset + bytes ≤ iovSize qiov := by
  unfold bdrvCheckRequest32 at accepted
  dsimp only at accepted
  split at accepted
  next rejected => exact absurd rejected accepted
  rename_i inner
  obtain ⟨offsetNonneg, bytesNonneg, range, fits⟩ := bdrvCheckQiovRequest_accepts inner
  split at accepted
  · exact absurd (by decide : -eio < 0) accepted
  · exact ⟨offsetNonneg, bytesNonneg, range, by omega, fits qiov rfl⟩

end

/-- The places of a window of a vector. -/
def window (qiov : Qiov) (qiovOffset bytes : Nat) : List Place := ((locs qiov).drop qiovOffset).take bytes

theorem window_add (qiov : Qiov) (qiovOffset a b : Nat) :
    window qiov qiovOffset (a + b) = window qiov qiovOffset a ++ window qiov (qiovOffset + a) b := by
  rw [window, take_add, drop_drop]
  rfl

variable {qiov : Qiov}

theorem window_length (fits : qiovOffset + bytes ≤ iovSize qiov) :
    (window qiov qiovOffset bytes).length = bytes := by
  rw [window, length_take, length_drop, locs_length]
  omega

theorem driverWindow_eq (nonempty : ∀ v ∈ qiov, 0 < v.len) (fits : qiovOffset + bytes ≤ iovSize qiov) :
    driverWindow part qiov qiovOffset bytes = .ok (window qiov qiovOffset bytes) := by
  unfold driverWindow
  split
  · rfl
  split
  · obtain ⟨iov, sliced, places⟩ := qemuIovecInitSlice_spec nonempty fits
    simp only [sliced, places]
    rfl
  · obtain ⟨rfl, rfl⟩ : qiovOffset = 0 ∧ bytes = iovSize qiov := by omega
    rw [window, drop_zero, take_of_length_le (locs_length qiov).le]

/-- A call on whole blocks. -/
def DriverCall.Aligned (align : Nat) (call : DriverCall) : Prop := align ∣ call.offset ∧ align ∣ call.bytes

/-- A call on whole blocks that the driver answered. -/
def DriverCall.Served (driver : Driver) (align : Nat) (call : DriverCall) : Prop :=
  call.Aligned align ∧ ∃ n, call.ret = min (driver call.op n) 0

theorem window_mem (member : p ∈ window qiov qiovOffset bytes) : ∃ v ∈ qiov, v.region = p.1 := by
  obtain ⟨v, inside, place⟩ := mem_flatMap.mp (mem_of_mem_drop (mem_of_mem_take member))
  obtain ⟨k, -, rfl⟩ := mem_map.mp place
  exact ⟨v, inside, rfl⟩

/-- A vector of the caller or of the padding code, and not of the zero fallback. -/
def Foreign (qiov : Qiov) : Prop := ∀ v ∈ qiov, v.region ≠ .zeroes

/-- One buffer as a vector. -/
theorem window_singleton (v : Iovec Region) : window [v] 0 v.len = v.locs := by
  simp [window]

theorem Iovec.locs_nodup (v : Iovec ρ) : v.locs.Nodup :=
  nodup_range.map fun _ _ same => by simpa using congrArg Prod.snd same

end Qemu.Block
