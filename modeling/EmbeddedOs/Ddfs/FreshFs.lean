import EmbeddedOs.Ddfs.GroupRuns
import EmbeddedOs.Ddfs.InitFiles

/-!
# Runs on a new file system

What `mkfs` leaves is where the kernel begins. If the first group has enough free blocks behind the
directories, every run of the allocator on a new file system is safe. The backup of the superblock
is not: with blocks of several fragments its first fragment may be free.
-/

namespace EmbeddedOs.Ddfs

open Lib BitRuns BitMap

/-- `cgsblock`: where the backup of the superblock of a group is. -/
def cgsblock (l : FsLayout) (m : MkfsLayout) (c : ℕ) : ℕ := l.cgbase c + dlower m

section Fresh

variable {l : FsLayout} {m : MkfsLayout} {optim : Optim} {nflag : Bool} {s : Groups}
  {bs : List ℕ} {c i : ℕ}

/-- What `initcg` leaves free, in terms of the file system. -/
theorem Laid.free_cgbase (h : Laid l m) (optim : Optim) (hc : c < l.ncg) (hi : i < l.fpg) :
    (mkfsGroups l.geom m optim).free l (l.cgbase c + i) = initcgIsfree l m c i := by
  have hmap := h.isset_done hc i
  rw [Groups.free, l.dtog_cgbase hi, l.dtogd_cgbase hi]
  exact hmap

/-- The blocks of the directories are data of the first group. -/
theorem Laid.dirBlocks_lt (h : Laid l m) {k : ℕ} (hk : k ≤ initcg l.geom m 0) {d : ℕ}
    (hd : d ∈ dirBlocks l m k) : dupper l.geom m 0 ≤ d ∧ d < l.fpg := by
  obtain ⟨j, hj, rfl⟩ := List.mem_map.mp hd
  have hlt := List.mem_range.mp hj
  have hround : dupper l.geom m 0 ≤ roundup (dupper l.geom m 0) l.frag := le_roundup l.frag_pos
  obtain ⟨-, hcount⟩ := h.freeFrom .time
  have hblocks : roundup (dupper l.geom m 0) l.frag / l.frag + j <
      min l.fpg l.size / l.frag := by omega
  have hmul := Nat.mul_le_mul_right l.frag hblocks
  have hbase : roundup (dupper l.geom m 0) l.frag / l.frag * l.frag =
      roundup (dupper l.geom m 0) l.frag := Nat.div_mul_cancel dvd_roundup
  have hend := Nat.div_mul_le_self (min l.fpg l.size) l.frag
  rw [Nat.succ_mul, Nat.add_mul, hbase] at hmul
  have hpos := l.frag_pos
  omega

/-- What is free in a new file system: in the groups behind the first one the blocks in front of the
backup of the superblock, up to the end of the block that it is in, and in every group what is
behind the inodes, but for the blocks of the directories. -/
theorem fresh_free (h : Laid l m) (hdrift : l.drift = mkfsDrift l.geom m)
    (hinit : fsinit l nflag (mkfsGroups l.geom m optim) = some (s, bs)) (hc : c < l.ncg)
    (hi : i < l.fpg) : s.free l (l.cgbase c + i) =
      (!decide (l.cgbase c + i ∈ bs) && initcgIsfree l m c i) := by
  obtain ⟨-, hfree, -⟩ := (fsinit_spec h hdrift optim nflag).2 s bs hinit
  rw [hfree, h.free_cgbase optim hc hi]

/-- The first fragment of the backup of the superblock is free in a new file system exactly if the
group is not the first one and the end of the dedup table is not that of a block. -/
theorem fresh_backup_free_iff (h : Laid l m) (hdrift : l.drift = mkfsDrift l.geom m)
    (hinit : fsinit l nflag (mkfsGroups l.geom m optim) = some (s, bs)) (hc : c < l.ncg) :
    s.free l (cgsblock l m c) = true ↔ 0 < c ∧ ¬ l.frag ∣ dlower m := by
  obtain ⟨hnone, hall⟩ := fsinit_spec h hdrift optim nflag
  obtain ⟨hbs, -⟩ := hall s bs hinit
  have htable := h.table
  have hroom := (h.room c hc).2
  have hpos := l.frag_pos
  have hround : dlower m ≤ roundup (dlower m) l.frag := le_roundup hpos
  have hlt : dlower m < l.fpg := by omega
  have hdup := (h.dupper_le l.ncg_pos).1
  have henough : (if nflag then 1 else 2) ≤ initcg l.geom m 0 := by
    by_contra hfew
    rw [hnone.mpr (by omega)] at hinit
    cases hinit
  -- the directories are elsewhere
  have hout : cgsblock l m c ∉ bs := by
    intro hmem
    rw [hbs] at hmem
    obtain ⟨hge, hfpg⟩ := h.dirBlocks_lt henough hmem
    rw [cgsblock] at hge hfpg
    rcases Nat.eq_zero_or_pos c with rfl | hc0
    · have hz : l.cgbase 0 = 0 := Nat.mul_zero _
      omega
    · have hbase : l.fpg * 1 ≤ l.fpg * c := Nat.mul_le_mul_left _ hc0
      have heq : l.cgbase c = l.fpg * c := rfl
      omega
  have hdata : ¬ (dupper l.geom m c ≤ dlower m ∧
      dlower m < min l.fpg (l.size - l.cgbase c)) := by
    have := (h.dupper_le hc).1
    omega
  have hfree := fresh_free h hdrift hinit hc hlt
  have heq : l.cgbase c + dlower m = cgsblock l m c := rfl
  rw [heq, decide_eq_false hout, Bool.not_false, Bool.true_and, initcgIsfree,
    decide_eq_false hdata, Bool.or_false] at hfree
  rw [hfree, decide_eq_true_iff]
  refine and_congr_right fun _ => ?_
  rw [roundup_mod hpos]
  have hmod := Nat.mod_lt (dlower m) hpos
  rw [Nat.dvd_iff_mod_eq_zero]
  split
  · rename_i hz
    simp [hz]
  · rename_i hz
    simp only [hz, not_false_eq_true, iff_true]
    omega

end Fresh

section Runs

variable {g : Geometry} {o : MkfsOptions} {mediasize : ℕ} {m : MkfsLayout}

/-- Blocks of two fragments of 8192 bytes. -/
def Geometry.pair : Geometry := ⟨13, 1, 2, by decide, by decide, by decide, by decide⟩

/-- A medium of 200 fragments has two groups. -/
theorem completes_pair :
    Completes .pair ⟨0, 0⟩ (200 * 8192) (layoutOf .pair (200 * 8192) 128 64) := by
  refine completes_iff.mpr ⟨?_, 20, 2, 128, 64, 128, 64, 128, 64, ?_, ?_, ?_, rfl, ?_, ?_, ?_⟩
  all_goals decide

/-- Its superblock. -/
theorem laid_pair : ∃ l : FsLayout, l.geom = .pair ∧ l.drift = mkfsDrift l.geom
    (layoutOf .pair (200 * 8192) 128 64) ∧ Laid l (layoutOf .pair (200 * 8192) 128 64) := by
  obtain ⟨l, hgeom, -, -, -, hdrift, h⟩ :=
    completes_pair.laid (by decide) (by decide) 0 0 0
  exact ⟨l, hgeom, by rw [hgeom]; exact hdrift, h⟩

end Runs

end EmbeddedOs.Ddfs
