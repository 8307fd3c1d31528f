import EmbeddedOs.Ddfs.GroupTakes

/-!
# The invariant of the cylinder groups

Between two operations every group is sound, and the superblock has the counts of the groups
and their totals. An operation on one group keeps this if the group is sound behind it and the
superblock follows its counts.
-/

namespace EmbeddedOs.Ddfs

open Lib BitRuns Finset

/-- The counts of `struct csum`. -/
def csumFields : List (Csum → ℤ) := [Csum.ndir, Csum.nbfree, Csum.nifree, Csum.nffree]

/-- `fs_cstotal` has the totals of `fs_cs`, up to what `mkfs` left. -/
def TotalsExact (l : FsLayout) (s : Groups) : Prop :=
  ∀ φ ∈ csumFields, φ s.cstotal = (∑ c ∈ range l.ncg, φ (s.cs c)) + φ l.drift

/-- Whether a fragment of the file system is free. -/
def Groups.free (l : FsLayout) (s : Groups) (d : ℕ) : Bool :=
  (s.cg (l.dtog d)).blksfree.isset (l.dtogd d)

/-- What holds of the free maps of all groups between two operations. -/
structure Good (l : FsLayout) (s : Groups) : Prop where
  /-- Each group is sound. -/
  group : ∀ c, c < l.ncg → GroupOk l c (s.cg c)
  /-- `fs_cs` has the counts of the groups. -/
  cs : ∀ c, c < l.ncg → s.cs c = (s.cg c).cs
  /-- `fs_cstotal` follows their totals. -/
  totals : TotalsExact l s
  /-- `fs_maxcluster` bounds the clusters of a group. -/
  maxcluster : ∀ c, c < l.ncg → ClusterBound l (s.cg c).clustersum (s.maxcluster c)
  /-- The boot block is never free. -/
  zero : s.free l 0 = false

/-- A change that adds to the counts, whatever they are. -/
def Shift (f : Csum → Csum) : Prop := ∀ φ ∈ csumFields, ∃ d, ∀ x, φ (f x) = φ x + d

/-- An operation on the blocks of a group leaves its inodes alone. -/
structure SameInodes (c c' : Cg) : Prop where
  inosused : c'.inosused = c.inosused
  irotor : c'.irotor = c.irotor
  niblk : c'.niblk = c.niblk
  initediblk : c'.initediblk = c.initediblk
  nifree : c'.cs.nifree = c.cs.nifree
  ndir : c'.cs.ndir = c.cs.ndir

/-- A piece of `n` fragments at `r` is taken from the free map, and nothing else changes. -/
structure Takes (l : FsLayout) (s s' : Groups) (r n : ℕ) : Prop where
  /-- It is within a block. -/
  fits : r % l.frag + n ≤ l.frag
  /-- It was free. -/
  was : ∀ i, i < n → s.free l (r + i) = true
  /-- It is all that is not free any more. -/
  free : ∀ d, s'.free l d = (!decide (r ≤ d ∧ d < r + n) && s.free l d)
  /-- The inodes are as before. -/
  inodes : ∀ c, SameInodes (s.cg c) (s'.cg c)

/-- The free map of a group has `n` fragments in a row within a block. -/
def HasRoom (l : FsLayout) (m : BitMap) (n : ℕ) : Prop :=
  ∃ bno, bno < l.fpg ∧ bno % l.frag + n ≤ l.frag ∧ ∀ i, i < n → m.isset (bno + i) = true

section Macros

variable {l : FsLayout} {bno n : ℕ}

/-- A piece of a group is a piece of the file system. -/
theorem mem_piece_iff (cg d : ℕ) (hb : bno + n ≤ l.fpg) :
    (l.cgbase cg + bno ≤ d ∧ d < l.cgbase cg + bno + n) ↔
      l.dtog d = cg ∧ bno ≤ l.dtogd d ∧ l.dtogd d < bno + n := by
  have hd := l.cgbase_dtog d
  constructor
  · rintro ⟨hlow, hhigh⟩
    have heq : d = l.cgbase cg + (d - l.cgbase cg) := by omega
    have hlt : d - l.cgbase cg < l.fpg := by omega
    have hdtog : l.dtog d = cg := by
      rw [heq]
      exact l.dtog_cgbase hlt
    rw [hdtog] at hd
    exact ⟨hdtog, by omega, by omega⟩
  · rintro ⟨rfl, hlow, hhigh⟩
    omega

theorem piece_le_fpg (l : FsLayout) {bno n : ℕ} (hb : bno < l.fpg)
    (hfits : bno % l.frag + n ≤ l.frag) : bno + n ≤ l.fpg := by
  have hblock : bno / l.frag < l.blocks := Nat.div_lt_div_of_lt_of_dvd l.frag_dvd_fpg hb
  have hmul : (bno / l.frag + 1) * l.frag ≤ l.blocks * l.frag := Nat.mul_le_mul_right _ hblock
  have hbase : bno / l.frag * l.frag + bno % l.frag = bno := Nat.div_add_mod' bno l.frag
  rw [l.blocks_mul, Nat.succ_mul] at hmul
  omega

end Macros

section Groups

variable {l : FsLayout} {s : Groups} {cg : ℕ} {c' : Cg} {f g : Csum → Csum}

theorem SameInodes.refl (c : Cg) : SameInodes c c := ⟨rfl, rfl, rfl, rfl, rfl, rfl⟩

theorem SameInodes.trans {a b c : Cg} (h : SameInodes a b) (h' : SameInodes b c) :
    SameInodes a c :=
  ⟨h'.inosused.trans h.inosused, h'.irotor.trans h.irotor, h'.niblk.trans h.niblk,
    h'.initediblk.trans h.initediblk, h'.nifree.trans h.nifree, h'.ndir.trans h.ndir⟩

/-- An operation on one group leaves the inodes of all groups alone if it does so in its group. -/
theorem SameInodes.of_group {s' : Groups} (hother : ∀ b, b ≠ cg → s'.cg b = s.cg b)
    (hself : SameInodes (s.cg cg) (s'.cg cg)) (c : ℕ) : SameInodes (s.cg c) (s'.cg c) := by
  by_cases h : c = cg
  · rw [h]
    exact hself
  · rw [hother c h]
    exact SameInodes.refl _

theorem free_setCg (d : ℕ) : (s.setCg cg c').free l d =
    if l.dtog d = cg then c'.blksfree.isset (l.dtogd d) else s.free l d := by
  unfold Groups.free
  by_cases h : l.dtog d = cg
  · rw [if_pos h, h, Groups.cg_setCg_self]
  · rw [if_neg h, Groups.cg_setCg_of_ne _ _ _ h]

theorem Shift.comp (hf : Shift f) (hg : Shift g) : Shift fun x => g (f x) := by
  intro φ hφ
  obtain ⟨d, hd⟩ := hf φ hφ
  obtain ⟨e, he⟩ := hg φ hφ
  exact ⟨d + e, fun x => by rw [he, hd, add_assoc]⟩

theorem shift_nbfree (d : ℤ) : Shift fun cs => { cs with nbfree := cs.nbfree + d } := by
  intro φ hφ
  simp only [csumFields, List.mem_cons, List.not_mem_nil, or_false] at hφ
  rcases hφ with rfl | rfl | rfl | rfl
  · exact ⟨0, fun x => (Int.add_zero _).symm⟩
  · exact ⟨d, fun _ => rfl⟩
  · exact ⟨0, fun x => (Int.add_zero _).symm⟩
  · exact ⟨0, fun x => (Int.add_zero _).symm⟩

theorem shift_nffree (d : ℤ) : Shift fun cs => { cs with nffree := cs.nffree + d } := by
  intro φ hφ
  simp only [csumFields, List.mem_cons, List.not_mem_nil, or_false] at hφ
  rcases hφ with rfl | rfl | rfl | rfl
  · exact ⟨0, fun x => (Int.add_zero _).symm⟩
  · exact ⟨0, fun x => (Int.add_zero _).symm⟩
  · exact ⟨0, fun x => (Int.add_zero _).symm⟩
  · exact ⟨d, fun _ => rfl⟩

/-- The totals follow a change of the counts of one group. -/
theorem TotalsExact.account (h : TotalsExact l s) (hcg : cg < l.ncg) (hf : Shift f) :
    TotalsExact l (s.account cg f) := by
  intro φ hφ
  obtain ⟨d, hd⟩ := hf φ hφ
  have hmem : cg ∈ range l.ncg := mem_range.mpr hcg
  have hrest : ∑ c ∈ (range l.ncg).erase cg, φ ((s.account cg f).cs c) =
      ∑ c ∈ (range l.ncg).erase cg, φ (s.cs c) := by
    refine sum_congr rfl fun c hc => ?_
    have hne := ne_of_mem_erase hc
    rw [Groups.cs_account_of_ne _ _ _ hne]
  have hold := h φ hφ
  rw [← add_sum_erase _ _ hmem] at hold
  rw [Groups.cstotal_account, hd, hold, ← add_sum_erase _ _ hmem, hrest, Groups.cs_account_self, hd]
  omega

/-- An operation on one group keeps the invariant. -/
theorem Good.write (mc : ℕ → ℕ) (hgood : Good l s) (hcg : cg < l.ncg) (hf : Shift f)
    (hok : GroupOk l cg c') (hcs : c'.cs = f (s.cg cg).cs)
    (hmc : ∀ b, b ≠ cg → mc b = s.maxcluster b)
    (hmax : ClusterBound l c'.clustersum (mc cg))
    (hzero : cg = 0 → c'.blksfree.isset 0 = false) :
    Good l ((({ s with maxcluster := mc } : Groups).account cg f).setCg cg c') where
  group := fun b hb => by
    by_cases h : b = cg
    · subst b
      rw [Groups.cg_setCg_self]
      exact hok
    · rw [Groups.cg_setCg_of_ne _ _ _ h]
      exact hgood.group b hb
  cs := fun b hb => by
    by_cases h : b = cg
    · subst b
      rw [Groups.cg_setCg_self, Groups.cs_setCg, Groups.cs_account_self, hcs]
      exact congrArg f (hgood.cs cg hcg)
    · rw [Groups.cg_setCg_of_ne _ _ _ h, Groups.cs_setCg, Groups.cs_account_of_ne _ _ _ h]
      exact hgood.cs b hb
  totals := TotalsExact.account (s := { s with maxcluster := mc }) hgood.totals hcg hf
  maxcluster := fun b hb => by
    by_cases h : b = cg
    · subst b
      rw [Groups.cg_setCg_self]
      exact hmax
    · rw [Groups.cg_setCg_of_ne _ _ _ h]
      have := hgood.maxcluster b hb
      rwa [← hmc b h] at this
  zero := by
    rw [free_setCg]
    split
    · rename_i h
      have hz : l.dtogd 0 = 0 := Nat.zero_mod _
      have hg0 : l.dtog 0 = 0 := Nat.zero_div _
      rw [hz]
      exact hzero (h.symm.trans hg0)
    · exact hgood.zero

/-- The same for an operation that does not touch `fs_maxcluster`. -/
theorem Good.writeLoose (hgood : Good l s) (hcg : cg < l.ncg) (hf : Shift f)
    (hok : GroupOk l cg c') (hcs : c'.cs = f (s.cg cg).cs)
    (hsum : c'.clustersum = (s.cg cg).clustersum)
    (hzero : cg = 0 → c'.blksfree.isset 0 = false) :
    Good l ((s.account cg f).setCg cg c') :=
  hgood.write s.maxcluster hcg hf hok hcs (fun _ _ => rfl)
    (by rw [hsum]; exact hgood.maxcluster cg hcg) hzero

/-- What is taken of the map of a group is taken of the file system. -/
theorem Takes.of_group {s' : Groups} {bno n : ℕ} (hbno : bno < l.fpg)
    (hfits : bno % l.frag + n ≤ l.frag)
    (hset : ∀ i, i < n → (s.cg cg).blksfree.isset (bno + i) = true)
    (hother : ∀ b, b ≠ cg → s'.cg b = s.cg b)
    (hmap : ∀ i, (s'.cg cg).blksfree.isset i =
      (!decide (bno ≤ i ∧ i < bno + n) && (s.cg cg).blksfree.isset i))
    (hself : SameInodes (s.cg cg) (s'.cg cg)) : Takes l s s' (l.cgbase cg + bno) n := by
  have hle := piece_le_fpg l hbno hfits
  constructor
  · rwa [Nat.add_mod, l.cgbase_mod, Nat.zero_add, Nat.mod_mod]
  · intro i hi
    rw [Nat.add_assoc, Groups.free, l.dtog_cgbase (by omega), l.dtogd_cgbase (by omega)]
    exact hset i hi
  · intro d
    have hiff := mem_piece_iff cg d hle
    unfold Groups.free
    by_cases h : l.dtog d = cg
    · have hdec : decide (l.cgbase cg + bno ≤ d ∧ d < l.cgbase cg + bno + n) =
          decide (bno ≤ l.dtogd d ∧ l.dtogd d < bno + n) :=
        decide_eq_decide.mpr (hiff.trans (and_iff_right h))
      rw [hdec, h, hmap]
    · have hdec : decide (l.cgbase cg + bno ≤ d ∧ d < l.cgbase cg + bno + n) = false :=
        decide_eq_false fun hmem => h (hiff.mp hmem).1
      rw [hdec, hother _ h, Bool.not_false, Bool.true_and]
  · exact SameInodes.of_group hother hself

end Groups

section Room

variable {l : FsLayout} {m : BitMap} {k n : ℕ}

/-- A fragment that is long enough is room. -/
theorem hasRoom_of_mem_runs (hn : 1 ≤ n) (hnk : n ≤ k) {h : ℕ} (hh : h < l.blocks)
    (hmem : k ∈ runs (blockFrags l.frag m h)) (hk : k ≤ l.frag) : HasRoom l m n := by
  obtain ⟨pos, hpos⟩ := fragPlace_ne_none (g := l.geom) (by omega) hk hmem
  have hfrag := fragPlace_isFrag (g := l.geom) (by omega) hk hpos
  have hfits := hfrag.fits
  have hlt : pos < 0 + (l.geom.frag - k + 1) := siftBlock_lt hpos
  have hmul : (h + 1) * l.frag ≤ l.blocks * l.frag := Nat.mul_le_mul_right _ hh
  rw [l.blocks_mul, Nat.succ_mul] at hmul
  have hfrageq : l.geom.frag = l.frag := rfl
  rw [hfrageq] at hfits hlt
  exact ⟨h * l.frag + pos, by omega, by omega, fun i hi => hfrag.free i (by omega)⟩

/-- Room is in a fragment that is long enough. -/
theorem HasRoom.exists_run (hn : 1 ≤ n) (h : HasRoom l m n) :
    ∃ b k, b < l.blocks ∧ n ≤ k ∧ k ∈ runs (blockFrags l.frag m b) := by
  obtain ⟨bno, hbno, hfits, hset⟩ := h
  have hbase : bno / l.frag * l.frag + bno % l.frag = bno := Nat.div_add_mod' bno l.frag
  obtain ⟨k, hk, hmem⟩ := BitRuns.exists_run (f := m.isset) (a := bno / l.frag * l.frag)
    (p := bno % l.frag) hn hfits (fun i hi => by
      rw [hbase]
      exact hset i hi)
  exact ⟨bno / l.frag, k, Nat.div_lt_div_of_lt_of_dvd l.frag_dvd_fpg hbno, hk, hmem⟩

/-- Room for a block is a free block. -/
theorem HasRoom.exists_block (h : HasRoom l m l.frag) :
    ∃ b, b < l.blocks ∧ ffsIsblock l.frag m b = true := by
  obtain ⟨bno, hbno, hfits, hset⟩ := h
  have hmod : bno % l.frag = 0 := by omega
  have hbase : bno / l.frag * l.frag = bno := Nat.div_mul_cancel (Nat.dvd_of_mod_eq_zero hmod)
  refine ⟨bno / l.frag, Nat.div_lt_div_of_lt_of_dvd l.frag_dvd_fpg hbno, ?_⟩
  exact (ffsIsblock_iff l.geom m _).mpr fun j hj => by
    have := hset j hj
    rwa [← hbase] at this

end Room

end EmbeddedOs.Ddfs
