import Qemu.Qcow2.DiscardEntries

namespace Qemu.Qcow2.Metadata

variable {cfg : Config}

theorem Rewrites.join (first : Rewrites cfg [] (onRange a m f) (keptOn cfg keeps a m s) s s₁)
    (second : Rewrites cfg [] (onRange (a + m) n f) (keptOn cfg keeps (a + m) n s₁) s₁ s₂) :
    Rewrites cfg [] (onRange a (m + n) f) (keptOn cfg keeps a (m + n) s) s s₂ := by
  have untouched : ∀ g, a + m ≤ g → s₁.entries cfg 0 g = s.entries cfg 0 g := by
    intro g above
    rw [first.active, onRange, if_neg (by omega)]
  refine (first.trans second).congr (fun g => ?_) (fun c => ?_)
  · simp only [onRange]
    by_cases left : a ≤ g ∧ g < a + m
    · rw [if_pos left, if_pos (by omega), if_neg (by omega)]
    · rw [if_neg left]
      by_cases right : a + m ≤ g ∧ g < a + m + n
      · rw [if_pos right, if_pos (by omega)]
      · rw [if_neg right, if_neg (by omega)]
  · constructor
    · rintro ⟨g, low, high, keep⟩
      by_cases left : g < a + m
      · exact .inl ⟨g, low, left, keep⟩
      · rw [← untouched g (by omega)] at keep
        exact .inr ⟨g, by omega, by omega, keep⟩
    · rintro (⟨g, low, high, keep⟩ | ⟨g, low, high, keep⟩)
      · exact ⟨g, low, by omega, keep⟩
      · rw [untouched g low] at keep
        exact ⟨g, by omega, by omega, keep⟩

theorem Rewrites.onNothing (same : Rewrites cfg [] sameEntries noneKept s s₁) :
    Rewrites cfg [] (onRange a 0 f) (keptOn cfg keeps a 0 s) s s₁ :=
  same.congr (fun g => by rw [onRange, if_neg (by omega)])
    fun c => ⟨fun ⟨g, low, high, _⟩ => by omega, False.elim⟩

theorem forEntries_rewrites (step : RewritesEntry cfg f keeps body)
    (consistent : s.Consistent cfg []) (copied : s.Copied i) (fits : j + n ≤ cfg.l2Size)
    (done : forEntries (body (s.l2At i)) n j s = .ok s₁) :
    Rewrites cfg [] (onRange (i * cfg.l2Size + j) n f) (keptOn cfg keeps (i * cfg.l2Size + j) n s) s
    s₁ := by
  induction n generalizing j s with
  | zero =>
    cases Except.ok.inj done
    exact (Rewrites.refl consistent).onNothing
  | succ n ih => ?_
  obtain ⟨next, stepped, rest⟩ := Checked.bind_ok.mp done
  obtain ⟨first, table⟩ := step consistent (by omega) copied stepped
  have sameTable : next.l2At i = s.l2At i := by rw [l2At, l2At, table]
  have sameFlag : next.Copied i := by rwa [Copied, table]
  rw [← sameTable] at rest
  have more := ih first.consistent sameFlag (by omega) rest
  rw [Nat.add_comm n 1]
  exact first.join more

theorem slice_fits (cfg : Config) (guest : Nat) :
    guest % cfg.l2Size + (cfg.l2SliceSize - guest % cfg.l2SliceSize) ≤ cfg.l2Size := by
  obtain ⟨k, size⟩ : ∃ k, cfg.l2Size = cfg.l2SliceSize * k := by
    have bits : cfg.sliceBits ≤ cfg.l2Bits := cfg.sliceRange
    refine ⟨2 ^ (cfg.l2Bits - cfg.sliceBits), ?_⟩
    rw [Format.l2Size, Format.l2SliceSize, ← Nat.pow_add, Nat.add_sub_cancel' bits]
  have small := Nat.mod_lt guest cfg.l2Size_pos
  have same : guest % cfg.l2Size % cfg.l2SliceSize = guest % cfg.l2SliceSize := by
    rw [size, Nat.mod_mul_right_mod]
  generalize guest % cfg.l2Size = r at small same ⊢
  have split := Nat.div_add_mod r cfg.l2SliceSize
  have quotient : r / cfg.l2SliceSize + 1 ≤ k := by
    rw [size] at small
    exact Nat.div_lt_of_lt_mul small
  have room : cfg.l2SliceSize * (r / cfg.l2SliceSize + 1) ≤ cfg.l2SliceSize * k :=
    Nat.mul_le_mul_left _ quotient
  rw [Nat.mul_succ] at room
  omega

theorem inL2Slice_rewrites (step : RewritesEntry cfg f keeps body)
    (consistent : s.Consistent cfg []) (positive : 0 < nbClusters)
    (done : inL2Slice cfg alloc body guest nbClusters s = .ok (s₁, ret)) :
    (ret < 0 ∧ Rewrites cfg [] sameEntries noneKept s s₁) ∨ ∃ m : Nat, ret = m ∧ 0 < m ∧
        m ≤ nbClusters ∧ Rewrites cfg [] (onRange guest m f) (keptOn cfg keeps guest m s) s s₁ := by
  obtain ⟨⟨s', ret', l2Offset⟩, table, done⟩ := Checked.bind_ok.mp done
  obtain ⟨opened, ready⟩ := getClusterTable_rewrites consistent table
  dsimp only at done
  by_cases failed : ret' < 0
  · rw [if_pos failed] at done
    cases Except.ok.inj done
    exact .inl ⟨failed, opened⟩
  rw [if_neg failed] at done
  obtain ⟨copied, here⟩ := ready (by omega)
  obtain ⟨s'', looped, ⟨⟩⟩ := Checked.bind_ok.mp done
  have slice := Nat.mod_lt guest (show 0 < cfg.l2SliceSize from Nat.two_pow_pos _)
  have fits := slice_fits cfg guest
  rw [here] at looped
  have rewritten := forEntries_rewrites step opened.consistent copied (by omega) looped
  have position : guest / cfg.l2Size * cfg.l2Size + guest % cfg.l2Size = guest := by
    rw [Nat.mul_comm]
    exact Nat.div_add_mod guest cfg.l2Size
  rw [position] at rewritten
  refine .inr ⟨_, rfl, by omega, by omega, (rewritten.after opened).congr (fun _ => rfl) fun c => ?_⟩
  simp [keptOn, opened.active]

/-- A loop over slices rewrites the entries of the range, or of a part if it fails. -/
theorem overSlices_rewrites (step : RewritesEntry cfg f keeps body)
    (consistent : s.Consistent cfg [])
    (done : overSlices cfg alloc body fuel guest nbClusters s = .ok (s₁, ret)) :
    ∃ m ≤ nbClusters, (0 ≤ ret → ret = 0 ∧ m = nbClusters) ∧
      Rewrites cfg [] (onRange guest m f) (keptOn cfg keeps guest m s) s s₁ := by
  induction fuel generalizing guest nbClusters s with
  | zero =>
    cases nbClusters with
    | zero =>
      cases Except.ok.inj done
      exact ⟨0, le_rfl, fun _ => ⟨rfl, rfl⟩, (Rewrites.refl consistent).onNothing⟩
    | succ n => cases done
  | succ fuel ih =>
    cases nbClusters with
    | zero =>
      cases Except.ok.inj done
      exact ⟨0, le_rfl, fun _ => ⟨rfl, rfl⟩, (Rewrites.refl consistent).onNothing⟩
    | succ n => ?_
    obtain ⟨⟨s', cleared⟩, slice, rest⟩ := Checked.bind_ok.mp done
    dsimp only at rest
    rcases inL2Slice_rewrites step consistent (Nat.succ_pos n) slice with
      ⟨failed, same⟩ | ⟨m, rfl, positive, bound, first⟩
    · rw [if_pos failed] at rest
      cases Except.ok.inj rest
      exact ⟨0, Nat.zero_le _, fun success => absurd failed (by omega), same.onNothing⟩
    obtain ⟨m', bound', success, second⟩ := ih first.consistent rest
    refine ⟨m + m', by omega, fun positive => ?_, first.join second⟩
    obtain ⟨zero, all⟩ := success positive
    refine ⟨zero, ?_⟩
    omega

end Qemu.Qcow2.Metadata
