import Qemu.Qcow2.DiscardLoops

namespace Qemu.Qcow2.Metadata

open Nat Except

variable {cfg : Config} {s s₁ s₂ : Metadata}

/-- The effect of `zero_l2_subclusters` on the entries, for `bytes` bytes from `offset`. -/
def zeroedPart (cfg : Config) (offset bytes g : Nat) (e : L2Entry) : L2Entry :=
  if bytes ≠ 0 ∧ g = offset / cfg.clusterSize then
    ⟨e.entry, zeroedBitmap (offsetToScIndex cfg offset) (sizeToSubclusters cfg bytes) e.bitmap⟩
  else e

theorem zeroedPart_zero (offset : Nat) : zeroedPart cfg offset 0 = sameEntries := by
  funext g e
  rw [zeroedPart, if_neg (by simp)]

variable {offset : Nat}

theorem zeroL2Subclusters_rewrites (consistent : s.Consistent cfg [])
    (done : zeroL2Subclusters cfg alloc offset nbSubclusters s = .ok (s₁, ret)) :
    (ret < 0 ∧ Rewrites cfg [] sameEntries noneKept s s₁) ∨
      (ret = 0 ∧ offsetToScIndex cfg offset + nbSubclusters ≤ cfg.subclustersPerCluster ∧
      cfg.hasSubclusters = true ∧
        cfg.getClusterType (s.entries cfg 0 (offset / cfg.clusterSize)).entry ≠ .compressed ∧
        Rewrites cfg [] (fun g e => if g = offset / cfg.clusterSize then
          ⟨e.entry, zeroedBitmap (offsetToScIndex cfg offset) nbSubclusters e.bitmap⟩ else e)
          noneKept s s₁) := by
  rw [zeroL2Subclusters] at done
  dsimp only at done
  by_cases count : 0 < nbSubclusters ∧ nbSubclusters < cfg.subclustersPerCluster
  swap
  · rw [if_pos count] at done
    cases done
  rw [if_neg (not_not.mpr count)] at done
  by_cases above : offsetToScIndex cfg offset + nbSubclusters > cfg.subclustersPerCluster
  · rw [if_pos above] at done
    cases done
  rw [if_neg above] at done
  by_cases unaligned : offset % cfg.subclusterSize ≠ 0
  · rw [if_pos unaligned] at done
    cases done
  rw [if_neg unaligned] at done
  obtain ⟨⟨s', ret', l2Offset⟩, table, done⟩ := Checked.bind_ok.mp done
  obtain ⟨opened, ready⟩ := getClusterTable_rewrites consistent table
  by_cases failed : ret' < 0
  · rw [if_pos failed] at done
    cases ok.inj done
    exact .inl ⟨failed, opened⟩
  rw [if_neg failed] at done
  obtain ⟨copied, rfl⟩ := ready (by omega)
  have small := mod_lt (offset / cfg.clusterSize) cfg.l2Size_pos
  have position : offset / cfg.clusterSize / cfg.l2Size * cfg.l2Size + offset /
      cfg.clusterSize % cfg.l2Size = offset / cfg.clusterSize := by
    rw [mul_comm]
    exact div_add_mod _ _
  have old := l2_eq_entries opened.consistent small copied
  rw [position, opened.active] at old
  have subclusters : cfg.hasSubclusters = true := by
    by_contra plain
    simp only [Format.subclustersPerCluster, if_neg plain] at count
    omega
  have written : cfg.getClusterType (s'.l2 _ _).entry ≠ .compressed →
      Rewrites cfg [] (fun g e => if g = offset / cfg.clusterSize then
          ⟨e.entry, zeroedBitmap (offsetToScIndex cfg offset) nbSubclusters e.bitmap⟩ else e)
            noneKept s _ :=
    fun standard => ((write_rewrites opened.consistent small copied
      (f := fun e => ⟨e.entry, zeroedBitmap (offsetToScIndex cfg offset) nbSubclusters e.bitmap⟩)
      rfl rfl standard).after opened).congr (fun g => by rw [position, onRange_one]) (fun _ => Iff.rfl)
  cases kind : cfg.getClusterType (s'.l2 (s'.l2At (offset / cfg.clusterSize / cfg.l2Size))
      (offset / cfg.clusterSize % cfg.l2Size)).entry with
  | compressed =>
    rw [kind] at done
    cases ok.inj done
    exact .inl ⟨by decide, opened⟩
  | normal | unallocated =>
    rw [kind] at done written
    cases ok.inj done
    rw [old] at kind
    exact .inr ⟨rfl, by omega, subclusters, by rw [kind]; nofun, written nofun⟩
  | zeroPlain | zeroAlloc =>
    rw [kind] at done
    cases done

/-- Where a part of a cluster is zeroed, it lies in the cluster and the cluster is not
compressed. -/
def PartFits (cfg : Config) (offset bytes : Nat) (s : Metadata) : Prop :=
  bytes ≠ 0 → cfg.hasSubclusters = true ∧
    offsetToScIndex cfg offset + sizeToSubclusters cfg bytes ≤ cfg.subclustersPerCluster ∧
    cfg.getClusterType (s.entries cfg 0 (offset / cfg.clusterSize)).entry ≠ .compressed

theorem zeroPartial_rewrites (consistent : s.Consistent cfg [])
    (done : zeroPartial cfg alloc offset bytes s = .ok (s₁, ret)) :
    (ret < 0 ∧ Rewrites cfg [] sameEntries noneKept s s₁) ∨
      (ret = 0 ∧ PartFits cfg offset bytes s ∧
      Rewrites cfg [] (zeroedPart cfg offset bytes) noneKept s s₁) := by
  rw [zeroPartial] at done
  by_cases none : bytes = 0
  · rw [if_pos none] at done
    cases ok.inj done
    rw [none]
    exact .inr ⟨rfl, fun some => absurd rfl some, Rewrites.refl consistent⟩
  · rw [if_neg none] at done
    rcases zeroL2Subclusters_rewrites consistent done with failed |
      ⟨zero, fits, subclusters, standard, written⟩
    · exact .inl failed
    · refine .inr ⟨zero, fun _ => ⟨subclusters, fits, standard⟩,
        written.congr (fun g => ?_) (fun _ => Iff.rfl)⟩
      simp [zeroedPart, none]

theorem roundUp_mod (offset align : Nat) : roundUp offset align % align = 0 := mul_mod_left _ _

theorem le_roundUp (offset : Nat) (positive : 0 < align) : offset ≤ roundUp offset align := by
  have above := lt_div_mul_add (a := offset + align - 1) positive
  rw [roundUp]
  omega

variable {endOffset : Nat}

/-- The head ends at a cluster boundary, or at the end of the range. -/
theorem zeroHead_cases (cfg : Config) (ordered : offset ≤ endOffset) :
    offset + zeroHead cfg offset endOffset = roundUp offset cfg.clusterSize ∧
        roundUp offset cfg.clusterSize ≤ endOffset ∨
      offset + zeroHead cfg offset endOffset = endOffset ∧
      endOffset < roundUp offset cfg.clusterSize := by
  have above := le_roundUp offset cfg.clusterSize_pos
  rw [zeroHead]
  omega

theorem sizeToClusters_zero : sizeToClusters cfg 0 = 0 := by
  have positive := cfg.clusterSize_pos
  rw [sizeToClusters, div_eq_of_lt (by omega)]

/-- The clusters of the body do not include the cluster of the head. -/
theorem head_outside (ordered : offset ≤ endOffset) (head : zeroHead cfg offset endOffset ≠ 0)
    (low : (offset + zeroHead cfg offset endOffset) / cfg.clusterSize ≤ g)
    (high : g < (offset + zeroHead cfg offset endOffset) / cfg.clusterSize +
      sizeToClusters cfg (endOffset - tail - (offset + zeroHead cfg offset endOffset))) :
    g ≠ offset / cfg.clusterSize := by
  rcases zeroHead_cases cfg ordered with ⟨start, -⟩ | ⟨start, -⟩
  · rw [start] at low
    intro same
    have aligned := Nat.div_mul_cancel (dvd_of_mod_eq_zero (roundUp_mod offset cfg.clusterSize))
    have bound : roundUp offset cfg.clusterSize ≤ offset := by
      calc roundUp offset cfg.clusterSize = _ := aligned.symm
        _ ≤ offset / cfg.clusterSize * cfg.clusterSize := mul_le_mul_right _ (low.trans_eq same)
        _ ≤ offset := div_mul_le_self _ _
    omega
  · rw [start] at low high
    rw [Nat.sub_right_comm, Nat.sub_self, Nat.zero_sub, sizeToClusters_zero] at high
    omega

/-- The effect of zeroing on the entries: `head` bytes from `offset`, `n` clusters from `guest`
and `tail` bytes from `stop`. -/
def zeroedRange (cfg : Config) (mayUnmap : Bool) (offset head guest n stop tail g : Nat)
    (e : L2Entry) : L2Entry :=
  zeroedPart cfg stop tail g (onRange guest n (zeroedEntry cfg mayUnmap) g
    (zeroedPart cfg offset head g e))

/-- The first whole cluster of a range to zero begins here. -/
def bodyStart (cfg : Config) (offset endOffset : Nat) : Nat := offset + zeroHead cfg offset endOffset

def tailBytes (cfg : Config) (offset endOffset : Nat) : Nat :=
  zeroTail cfg (bodyStart cfg offset endOffset) endOffset

def bodyEnd (cfg : Config) (offset endOffset : Nat) : Nat := endOffset - tailBytes cfg offset endOffset

def bodyClusters (cfg : Config) (offset endOffset : Nat) : Nat :=
  sizeToClusters cfg (bodyEnd cfg offset endOffset - bodyStart cfg offset endOffset)

/-- The whole range was zeroed; the clusters of its partial ends are not compressed. -/
structure AllZeroed (cfg : Config) (offset endOffset head n tail : Nat) (s s' : Metadata) : Prop where
  headIs : head = zeroHead cfg offset endOffset
  bodyIs : n = bodyClusters cfg offset endOffset
  tailIs : tail = tailBytes cfg offset endOffset
  headFits : PartFits cfg offset head s
  tailFits : PartFits cfg (bodyEnd cfg offset endOffset) tail s'

theorem zeroParts_rewrites (ordered : offset ≤ endOffset) (consistent : s.Consistent cfg [])
    (done : zeroParts cfg alloc offset endOffset mayUnmap s = .ok (s₁, ret)) :
    ∃ head n tail, (0 ≤ ret → ret = 0 ∧ AllZeroed cfg offset endOffset head n tail s s₁) ∧
      Rewrites cfg [] (zeroedRange cfg mayUnmap offset head
      (bodyStart cfg offset endOffset / cfg.clusterSize) n
          (bodyEnd cfg offset endOffset) tail)
        (keptOn cfg (ZeroKeeps cfg mayUnmap) (bodyStart cfg offset endOffset / cfg.clusterSize) n s)
        s s₁ := by
  obtain ⟨⟨s', ret'⟩, first, done⟩ := Checked.bind_ok.mp done
  dsimp only at done
  rcases zeroPartial_rewrites consistent first with ⟨failed, same⟩ | ⟨rfl, headFits, head⟩
  · rw [if_pos failed] at done
    cases ok.inj done
    refine ⟨0, 0, 0, fun success => absurd failed (by omega), same.congr (fun g => ?_) fun c => ?_⟩
    · rw [zeroedRange, zeroedPart_zero, zeroedPart_zero, onRange, if_neg (by omega)]
    · refine ⟨?_, False.elim⟩
      rintro ⟨g, low, high, -⟩
      omega
  obtain ⟨⟨s'', ret''⟩, second, done⟩ := Checked.bind_ok.mp done
  obtain ⟨m, bound, success, body⟩ :=
    overSlices_rewrites (zeroEntry_rewrites mayUnmap) head.consistent second
  -- the head lies in a cluster of its own
  have untouched : ∀ g, bodyStart cfg offset endOffset / cfg.clusterSize ≤ g →
      g < bodyStart cfg offset endOffset / cfg.clusterSize + m →
      s'.entries cfg 0 g = s.entries cfg 0 g := by
    intro g low high
    rw [head.active, zeroedPart, if_neg]
    rintro ⟨some, here⟩
    exact head_outside ordered some low (lt_of_lt_of_le high (Nat.add_le_add_left bound _)) here
  have both : Rewrites cfg []
      (zeroedRange cfg mayUnmap offset (zeroHead cfg offset endOffset)
        (bodyStart cfg offset endOffset / cfg.clusterSize) m (bodyEnd cfg offset endOffset) 0)
      (keptOn cfg (ZeroKeeps cfg mayUnmap) (bodyStart cfg offset endOffset / cfg.clusterSize) m s) s
        s'' := by
    refine (head.trans body).congr (fun g => ?_) fun c => ?_
    · rfl
    rw [false_or]
    constructor
    · rintro ⟨g, low, high, keep⟩
      rw [← untouched g low high] at keep
      exact ⟨g, low, high, keep⟩
    · rintro ⟨g, low, high, keep⟩
      rw [show s'.entries cfg 0 g = s.entries cfg 0 g from untouched g low high] at keep
      exact ⟨g, low, high, keep⟩
  by_cases failed : ret'' < 0
  · rw [if_pos failed] at done
    cases ok.inj done
    exact ⟨_, m, 0, fun success => absurd failed (by omega), both⟩
  rw [if_neg failed] at done
  obtain ⟨-, whole⟩ := success (by omega)
  rcases zeroPartial_rewrites body.consistent done with ⟨failed, same⟩ | ⟨rfl, tailFits, tail⟩
  · refine ⟨_, m, 0, fun success => absurd failed (by omega),
      (both.trans same).congr (fun g => rfl) fun c => ?_⟩
    exact (iff_of_eq (or_false _)).symm
  refine ⟨_, m, _, fun _ => ⟨rfl, rfl, whole, rfl, headFits, ?_⟩,
    (both.trans tail).congr (fun g => ?_) fun c => ?_⟩
  · intro some
    obtain ⟨subclusters, fits, standard⟩ := tailFits some
    refine ⟨subclusters, fits, ?_⟩
    rw [tail.active, zeroedPart]
    split <;> exact standard
  · rfl
  · exact (iff_of_eq (or_false _)).symm

theorem Rewrites.collecting
    (rewrites : Rewrites cfg [] update kept { s with cacheDiscards := true } s₁) :
    Rewrites cfg [] update kept s s₁ :=
  ⟨rewrites.consistent, rewrites.balanced, rewrites.active, rewrites.snapshot, rewrites.dataRefs_le,
    rewrites.discarding, rewrites.discarded⟩

theorem Consistent.collecting (consistent : s.Consistent cfg []) :
    ({ s with cacheDiscards := true } : Metadata).Consistent cfg [] :=
  ⟨consistent.covered, consistent.header, consistent.copied, consistent.tableAligned, consistent.aligned⟩

theorem clusterDiscard_rewrites (consistent : s.Consistent cfg [])
    (done : clusterDiscard cfg alloc offset bytes type fullDiscard s = .ok (s₂, ret)) :
    ∃ s₁ n, s₂ = (finish ret s₁).1 ∧ (0 ≤ ret → ret = 0 ∧ n = sizeToClusters cfg bytes) ∧
      Rewrites cfg [] (onRange (offset / cfg.clusterSize) n (discardedEntry cfg type fullDiscard))
        (keptOn cfg (DiscardKeeps cfg type fullDiscard) (offset / cfg.clusterSize) n s) s s₁ := by
  rw [clusterDiscard] at done
  split at done
  · cases done
  split at done
  · cases done
  obtain ⟨⟨s', ret'⟩, looped, done⟩ := Checked.bind_ok.mp done
  obtain ⟨n, -, success, rewrites⟩ :=
    overSlices_rewrites (discardEntry_rewrites type fullDiscard) consistent.collecting looped
  cases ok.inj done
  exact ⟨s', n, rfl, success, rewrites.collecting⟩

theorem subclusterZeroize_rewrites (version : 3 ≤ cfg.version) (consistent : s.Consistent cfg [])
    (done : subclusterZeroize cfg alloc offset bytes mayUnmap s = .ok (s₂, ret)) :
    ∃ s₁ head n tail, s₂ = (finish ret s₁).1 ∧
      (0 ≤ ret → ret = 0 ∧ AllZeroed cfg offset (offset + bytes) head n tail s s₁) ∧
      Rewrites cfg [] (zeroedRange cfg mayUnmap offset head
          (bodyStart cfg offset (offset + bytes) / cfg.clusterSize) n
          (bodyEnd cfg offset (offset + bytes)) tail)
        (keptOn cfg (ZeroKeeps cfg mayUnmap)
        (bodyStart cfg offset (offset + bytes) / cfg.clusterSize) n s) s s₁ := by
  rw [subclusterZeroize] at done
  split at done
  · cases done
  split at done
  · cases done
  rw [if_neg (by omega)] at done
  obtain ⟨⟨s', ret'⟩, parts, done⟩ := Checked.bind_ok.mp done
  obtain ⟨head, n, tail, success, rewrites⟩ :=
    zeroParts_rewrites (le_add_right offset bytes) consistent.collecting parts
  cases ok.inj done
  refine ⟨s', head, n, tail, rfl, fun positive => ?_, rewrites.collecting⟩
  obtain ⟨zero, all⟩ := success positive
  exact ⟨zero, all.headIs, all.bodyIs, all.tailIs, all.headFits, all.tailFits⟩

end Qemu.Qcow2.Metadata
