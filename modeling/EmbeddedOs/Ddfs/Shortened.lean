import EmbeddedOs.Ddfs.FreshFs
import EmbeddedOs.Ddfs.IndirectTrunc

/-!
# What a shortened file gives back

The end of `ffs_truncate` of `ddfs_inode.c` for a file that gets shorter, without soft updates:
behind the write of the new inode it releases what is below the indirect blocks, from the triple one
on, then the direct blocks, and last the rest of the last block. In the end every fragment is named
by the new file, or was released, as often as the old file named it.
-/

namespace EmbeddedOs.Ddfs

open Lib BlockTree

/-- `UFS_NIADDR`. -/
def ufsNiaddr : ℕ := 3

namespace Geometry

variable (g : Geometry)

/-- `blksize` of the block `lbn` of a file of `isize` bytes. -/
def blksize (isize lbn : ℕ) : ℕ :=
  if ufsNdaddr ≤ lbn ∨ (lbn + 1) * g.bsize ≤ isize then g.bsize
  else roundup (isize % g.bsize) g.fsize

/-- The last block that a file of `length` bytes keeps, -1 if it has none. -/
def lastblock (length : ℕ) : ℤ := ((length + g.bsize - 1) / g.bsize : ℕ) - 1

/-- `lastiblock`, before it is normalized. -/
def rawLastiblock (lastblock : ℤ) : ℕ → ℤ
  | 0 => lastblock - ufsNdaddr
  | level + 1 => rawLastiblock lastblock level - (g.nindir : ℤ) ^ (level + 1)

/-- `lastiblock`. -/
def lastiblock (lastblock : ℤ) (level : ℕ) : ℤ :=
  if g.rawLastiblock lastblock level < 0 then -1 else g.rawLastiblock lastblock level

/-- `indir_lbn`. -/
def indirLbn : ℕ → ℤ
  | 0 => -ufsNdaddr
  | level + 1 => indirLbn level - (g.nindir : ℤ) ^ (level + 1) - 1

/-- `fs_maxfilesize`, as `mkfs` computes it. -/
def maxfilesize : ℕ :=
  g.bsize * ufsNdaddr - 1 + ∑ level ∈ Finset.range ufsNiaddr, g.bsize * g.nindir ^ (level + 1)

end Geometry

/-- The loop over the direct blocks, of which the first `n` are left. -/
def truncDirects {ε : Type} (g : Geometry) (db : ℕ → ℤ) (osize : ℕ) (lastblock : ℤ) :
    ℕ → Released ε
  | 0 => .nothing
  | n + 1 =>
    if lastblock < n then
      (if db n = 0 then .nothing else blkfreeCounted (db n) (g.blksize osize n)).andThen
        (truncDirects g db osize lastblock n)
    else .nothing

/-- The last block, of which the rest is released. The code panics if nothing of it is kept. -/
def truncLast {ε : Type} (g : Geometry) (db : ℕ → ℤ) (osize length : ℕ) (lastblock : ℤ) :
    Option (Released ε) :=
  if lastblock < 0 then some .nothing
  else
    let bn := db lastblock.toNat
    if bn = 0 then some .nothing
    else
      let oldspace := g.blksize osize lastblock.toNat
      let newspace := g.blksize length lastblock.toNat
      if newspace = 0 then none
      else if newspace < oldspace then
        some (blkfreeCounted (bn + (newspace / g.fsize : ℕ)) (oldspace - newspace))
      else some .nothing

/-- The turn of the loop over the indirect blocks for one of them. -/
def truncIndir {ε : Type} (g : Geometry) (io : TruncIo ε) (lastblock : ℤ) (ib : ℕ → ℤ) (level : ℕ)
    (blks : PtrBlocks) : Released ε :=
  let bn := ib level
  let last := g.lastiblock lastblock level
  if bn = 0 then .nothing
  else
    (ffsIndirtrunc g io level blks (g.indirLbn level) bn last).andThen
      (if last < 0 then blkfreeCounted bn g.bsize else .nothing)

/-- The loop over the indirect blocks, of which the first `n` are left; `direct` is what follows. -/
def truncIndirs {ε : Type} (g : Geometry) (io : TruncIo ε) (lastblock : ℤ) (ib : ℕ → ℤ)
    (direct : Option (Released ε)) : ℕ → PtrBlocks → Option (Released ε)
  | 0, _ => direct
  | level + 1, blks =>
    let r := truncIndir g io lastblock ib level blks
    if 0 ≤ g.lastiblock lastblock level then some r
    else (truncIndirs g io lastblock ib direct level (writeOps r.ops blks)).map r.andThen

/-- What `ffs_truncate` releases behind the write of the new inode, without the `INVARIANTS` panics
`ffs_truncate1` to `ffs_truncate3` behind it. -/
def truncRelease {ε : Type} (g : Geometry) (io : TruncIo ε) (blks : PtrBlocks) (db ib : ℕ → ℤ)
    (osize length : ℕ) : Option (Released ε) :=
  let lastblock := g.lastblock length
  let direct := (truncLast g db osize length lastblock).map
    (truncDirects g db osize lastblock ufsNdaddr).andThen
  (truncIndirs g io lastblock ib direct ufsNiaddr blks).map
    (Released.andThen ⟨[], 0, io.update.or io.vtruncbuf⟩)

/-- The direct blocks in the new inode. -/
def keptDb (lastblock : ℤ) (db : ℕ → ℤ) (i : ℕ) : ℤ := if lastblock < i then 0 else db i

/-- The indirect blocks in the new inode. -/
def keptIb (g : Geometry) (lastblock : ℤ) (ib : ℕ → ℤ) (level : ℕ) : ℤ :=
  if g.lastiblock lastblock level < 0 then 0 else ib level

section Pieces

variable {g : Geometry} {x : ℤ}

/-- How often a piece of `size` bytes has a fragment. -/
def pieceUses (g : Geometry) (bn : ℤ) (size : ℕ) (x : ℤ) : ℕ :=
  if bn = 0 then 0 else (pieceFrags bn (size / g.fsize)).count x

@[simp] theorem pieceUses_hole (size : ℕ) : pieceUses g 0 size x = 0 := if_pos rfl

theorem pieceFrags_add (bn : ℤ) (a b : ℕ) :
    pieceFrags bn (a + b) = pieceFrags bn a ++ pieceFrags (bn + (a : ℤ)) b := by
  rw [pieceFrags, List.range_add, List.map_append, List.map_map]
  congr 1
  refine List.map_congr_left fun i _ => ?_
  show bn + ((a + i : ℕ) : ℤ) = bn + a + i
  push_cast
  ring

theorem Geometry.bsize_pos (g : Geometry) : 0 < g.bsize := Nat.two_pow_pos _

theorem roundup_bsize (g : Geometry) : roundup g.bsize g.fsize = g.bsize := by
  have hpos := g.fsize_pos
  rw [roundup, howmany, g.bsize_eq, Nat.mul_comm, Nat.mul_comm g.frag, Nat.mul_add_div hpos,
    Nat.div_eq_of_lt (by omega), Nat.add_zero]

theorem roundup_le_bsize {size : ℕ} (h : size ≤ g.bsize) : roundup size g.fsize ≤ g.bsize :=
  (roundup_mono h g.fsize).trans_eq (roundup_bsize g)

theorem blksize_whole {isize lbn : ℕ} (h : (lbn + 1) * g.bsize ≤ isize) :
    g.blksize isize lbn = g.bsize := if_pos (.inr h)

/-- The size of the block with the end of the file. -/
theorem blksize_end {isize lbn : ℕ} (hl : lbn < ufsNdaddr) (hlt : lbn * g.bsize < isize)
    (hle : isize ≤ (lbn + 1) * g.bsize) :
    g.blksize isize lbn = roundup (isize - lbn * g.bsize) g.fsize := by
  rw [Nat.succ_mul] at hle
  rcases Nat.eq_or_lt_of_le hle with heq | hless
  · have hrest : isize - lbn * g.bsize = g.bsize := by omega
    rw [blksize_whole (by rw [Nat.succ_mul]; omega), hrest, roundup_bsize]
  · have hmod : isize % g.bsize = isize - lbn * g.bsize := by
      have hsum : isize = isize - lbn * g.bsize + lbn * g.bsize := by omega
      rw [hsum, Nat.add_mul_mod_self_right, Nat.mod_eq_of_lt (by omega), Nat.add_sub_cancel]
    rw [Geometry.blksize, if_neg, hmod]
    rintro (h | h)
    · omega
    · rw [Nat.succ_mul] at h
      omega

theorem fsize_dvd_blksize (isize lbn : ℕ) : g.fsize ∣ g.blksize isize lbn := by
  unfold Geometry.blksize
  split
  · rw [g.bsize_eq]
    exact Nat.dvd_mul_left _ _
  · exact dvd_roundup

/-- The last block of a file: `length` ends in it. -/
theorem lastblock_spec (g : Geometry) (length : ℕ) :
    (length = 0 ∧ g.lastblock length = -1) ∨
      ∃ m : ℕ, g.lastblock length = m ∧ m * g.bsize < length ∧ length ≤ (m + 1) * g.bsize := by
  have hpos := g.bsize_pos
  have hdiv := Nat.div_add_mod (length + g.bsize - 1) g.bsize
  have hmod := Nat.mod_lt (length + g.bsize - 1) hpos
  unfold Geometry.lastblock
  cases hq : (length + g.bsize - 1) / g.bsize with
  | zero =>
    rw [hq, Nat.mul_zero] at hdiv
    exact .inl ⟨by omega, rfl⟩
  | succ m =>
    rw [hq, Nat.mul_succ, Nat.mul_comm] at hdiv
    refine .inr ⟨m, by push_cast; ring, by omega, ?_⟩
    rw [Nat.succ_mul]
    omega

/-- The block that keeps `length` bytes of a longer file: what is kept of it and what is left over
make up what it had. -/
theorem blksize_split {osize length m : ℕ} (hlt : length < osize) (hm : m < ufsNdaddr)
    (hbegin : m * g.bsize < length) (hend : length ≤ (m + 1) * g.bsize) :
    0 < g.blksize length m ∧ g.blksize length m ≤ g.blksize osize m := by
  have hnew := blksize_end hm hbegin hend
  have hge := le_roundup (x := length - m * g.bsize) g.fsize_pos
  rw [hnew]
  refine ⟨by omega, ?_⟩
  rcases Nat.le_total ((m + 1) * g.bsize) osize with hle | hle
  · rw [blksize_whole hle]
    rw [Nat.succ_mul] at hend
    exact roundup_le_bsize (by omega)
  · rw [blksize_end hm (hbegin.trans hlt) hle]
    exact roundup_mono (by omega) _

end Pieces

section Directs

variable {ε : Type} {g : Geometry} {io : TruncIo ε} {db : ℕ → ℤ} {osize length : ℕ}
  {lastblock : ℤ} {x : ℤ}

/-- How often the direct blocks have a fragment. -/
def directUses (g : Geometry) (size : ℕ) (db : ℕ → ℤ) (x : ℤ) : ℕ :=
  ∑ i ∈ Finset.range ufsNdaddr, pieceUses g (db i) (g.blksize size i) x

theorem GivesAll.piece (bn : ℤ) (size : ℕ) :
    GivesAll g io (if bn = 0 then .nothing else blkfreeCounted bn size) x
      (pieceUses g bn size x) := by
  unfold pieceUses
  split
  · exact GivesAll.nothing
  · exact GivesAll.size bn size

theorem truncDirects_givesAll (n : ℕ) :
    GivesAll g io (truncDirects g db osize lastblock n) x
      (∑ i ∈ Finset.range n, if lastblock < i then pieceUses g (db i) (g.blksize osize i) x
        else 0) := by
  induction n with
  | zero => exact GivesAll.nothing
  | succ n ih =>
    rw [truncDirects, Finset.sum_range_succ]
    split
    · rw [Nat.add_comm]
      exact (GivesAll.piece _ _).andThen ih
    · rename_i hlast
      have hnone : ∑ i ∈ Finset.range n, (if lastblock < i then
          pieceUses g (db i) (g.blksize osize i) x else 0) = 0 := by
        refine Finset.sum_eq_zero fun i hi => if_neg ?_
        have := Finset.mem_range.mp hi
        omega
      rw [hnone]
      exact GivesAll.nothing

/-- The rest of the last block. -/
theorem truncLast_spec (io : TruncIo ε) (db : ℕ → ℤ) (hlt : length < osize)
    (hl : g.lastblock length < ufsNdaddr) :
    ∃ r : Released ε, truncLast g db osize length (g.lastblock length) = some r ∧
      ∀ x, ∃ e, GivesAll g io r x (∑ i ∈ Finset.range ufsNdaddr,
        if (i : ℤ) = g.lastblock length then e else 0) ∧ ∀ i, i < ufsNdaddr →
        pieceUses g (keptDb (g.lastblock length) db i) (g.blksize length i) x +
            (if g.lastblock length < i then pieceUses g (db i) (g.blksize osize i) x else 0) +
            (if (i : ℤ) = g.lastblock length then e else 0) =
          pieceUses g (db i) (g.blksize osize i) x := by
  have hbehind : ∀ i : ℕ, g.lastblock length < i → keptDb (g.lastblock length) db i = 0 :=
    fun i hi => if_pos hi
  rcases lastblock_spec g length with ⟨-, hnone⟩ | ⟨m, hm, hbegin, hend⟩
  · refine ⟨.nothing, by rw [truncLast, hnone]; rfl, fun x => ⟨0, ?_, fun i _ => ?_⟩⟩
    · simp only [ite_self, Finset.sum_const_zero]
      exact GivesAll.nothing
    have hi : g.lastblock length < i := by omega
    rw [hbehind i hi, pieceUses_hole, if_pos hi, ite_self, Nat.zero_add, Nat.add_zero]
  · rw [hm] at hl hbehind ⊢
    have hmlt : m < ufsNdaddr := by omega
    obtain ⟨hnew, hle⟩ := blksize_split hlt hmlt hbegin hend
    -- the blocks in front of the last one are whole
    have hfront : ∀ i, i < m → g.blksize length i = g.blksize osize i := by
      intro i hi
      have hmul : (i + 1) * g.bsize ≤ m * g.bsize := Nat.mul_le_mul_right _ hi
      rw [blksize_whole (by omega), blksize_whole (by omega)]
    have hkept : ∀ i, i ≤ m → keptDb (m : ℕ) db i = db i := fun i hi => if_neg (by omega)
    obtain ⟨a, ha⟩ := fsize_dvd_blksize (g := g) length m
    obtain ⟨b, hb⟩ := fsize_dvd_blksize (g := g) osize m
    have hpos := g.fsize_pos
    have hab : a ≤ b := Nat.le_of_mul_le_mul_left (by rw [← ha, ← hb]; exact hle) hpos
    obtain ⟨c, rfl⟩ := Nat.exists_eq_add_of_le hab
    have hlast : ∃ r : Released ε, truncLast g db osize length (m : ℕ) = some r ∧
        ∀ x, ∃ e, GivesAll g io r x e ∧
          pieceUses g (db m) (g.blksize length m) x + e =
            pieceUses g (db m) (g.blksize osize m) x := by
      unfold truncLast
      rw [if_neg (by omega), Int.toNat_natCast]
      by_cases hz : db m = 0
      · refine ⟨.nothing, if_pos hz, fun x => ⟨0, GivesAll.nothing, ?_⟩⟩
        rw [hz, pieceUses_hole, pieceUses_hole]
      · simp only [hz, if_false, Nat.ne_of_gt hnew]
        by_cases hmore : g.blksize length m < g.blksize osize m
        · refine ⟨_, if_pos hmore, fun x => ⟨_, GivesAll.size _ _, ?_⟩⟩
          have hrest : (g.blksize osize m - g.blksize length m) / g.fsize = c := by
            rw [ha, hb, Nat.mul_add, Nat.add_sub_cancel_left, Nat.mul_div_cancel_left _ hpos]
          rw [pieceUses, pieceUses, if_neg hz, if_neg hz, hrest, hb, ha,
            Nat.mul_div_cancel_left _ hpos, Nat.mul_div_cancel_left _ hpos, pieceFrags_add,
            List.count_append]
        · refine ⟨.nothing, if_neg hmore, fun x => ⟨0, GivesAll.nothing, ?_⟩⟩
          rw [Nat.le_antisymm hle (Nat.le_of_not_lt hmore), Nat.add_zero]
    obtain ⟨r, heq, hgives⟩ := hlast
    refine ⟨r, heq, fun x => ?_⟩
    obtain ⟨e, hr, he⟩ := hgives x
    have hsum : (∑ i ∈ Finset.range ufsNdaddr, if (i : ℤ) = (m : ℕ) then e else 0) = e := by
      simp only [Nat.cast_inj, Finset.sum_ite_eq', Finset.mem_range, hmlt, if_true]
    refine ⟨e, by rwa [hsum], fun i _ => ?_⟩
    rcases Nat.lt_trichotomy i m with hi | rfl | hi
    · rw [hkept i hi.le, hfront i hi, if_neg (by omega), if_neg (by omega)]
      rfl
    · rw [hkept i (Nat.le_refl i), if_neg (lt_irrefl _), if_pos rfl, Nat.add_zero, he]
    · rw [hbehind i (by omega), pieceUses_hole, if_pos (by omega), if_neg (by omega),
        Nat.zero_add, Nat.add_zero]

/-- The direct blocks of a file that keeps nothing behind them. -/
theorem direct_spec (io : TruncIo ε) (db : ℕ → ℤ) (hlt : length < osize)
    (hl : g.lastblock length < ufsNdaddr) :
    ∃ r : Released ε, (truncLast g db osize length (g.lastblock length)).map
        (truncDirects g db osize (g.lastblock length) ufsNdaddr).andThen = some r ∧
      ∀ x, ∃ n, GivesAll g io r x n ∧
        directUses g length (keptDb (g.lastblock length) db) x + n = directUses g osize db x := by
  obtain ⟨r, heq, hgives⟩ := truncLast_spec io db hlt hl
  refine ⟨_, by rw [heq]; rfl, fun x => ?_⟩
  obtain ⟨e, hr, hsum⟩ := hgives x
  refine ⟨_, (truncDirects_givesAll _).andThen hr, ?_⟩
  rw [directUses, directUses, ← Nat.add_assoc, ← Finset.sum_add_distrib,
    ← Finset.sum_add_distrib]
  exact Finset.sum_congr rfl fun i hi => hsum i (Finset.mem_range.mp hi)

end Directs

section Levels

variable {ε : Type} {g : Geometry} {io : TruncIo ε} {v : PtrBlocks} {ib : ℕ → ℤ} {lastblock : ℤ}
  {x : ℤ} {r r' : Released ε} {before : ℤ → ℕ} {after : PtrBlocks → ℤ → ℕ}

/-- What a part does to how often a fragment is named: no more than `before` at any moment, with
what is released by then, and as often in the end. -/
structure Splits (g : Geometry) (io : TruncIo ε) (r : Released ε) (v : PtrBlocks)
    (before : ℤ → ℕ) (after : PtrBlocks → ℤ → ℕ) : Prop where
  bound : ∀ pre, pre <+: r.ops → ∀ x, after (writeOps pre v) x + given g pre x ≤ before x
  exact : (∀ lbn, io.bread lbn = none) → ∀ x,
    after (writeOps r.ops v) x + given g r.ops x = before x

theorem Splits.of_gives {n : ℤ → ℕ} (h : ∀ x, GivesAll g io r x (n x))
    (hsum : ∀ x, after v x + n x = before x) : Splits g io r v before after := by
  refine ⟨fun pre hpre x => ?_, fun hio x => ?_⟩
  · rw [((h x).noWrite.initial hpre).writeOps, ← hsum]
    exact Nat.add_le_add_left ((given_le hpre).trans (h x).le) _
  · rw [(h x).noWrite.writeOps, (h x).eq hio, hsum]

theorem Splits.after_gives {n : ℤ → ℕ} (h : ∀ x, GivesAll g io r x (n x))
    (h' : Splits g io r' v before after) :
    Splits g io (r.andThen r') v (fun x => n x + before x) after := by
  refine ⟨fun pre hpre x => ?_, fun hio x => ?_⟩
  · rcases initial_of_append hpre with hpre | ⟨c, hc, rfl⟩
    · have hnil := h'.bound [] List.nil_prefix x
      have hle := (given_le (g := g) (x := x) hpre).trans (h x).le
      rw [writeOps_nil, given_nil] at hnil
      rw [((h x).noWrite.initial hpre).writeOps]
      omega
    · have hb := h'.bound c hc x
      have hle := (h x).le
      rw [writeOps_append, (h x).noWrite.writeOps, given_append]
      omega
  · have he := h'.exact hio x
    show after (writeOps (r.ops ++ r'.ops) v) x + given g (r.ops ++ r'.ops) x = _
    rw [writeOps_append, (h x).noWrite.writeOps, given_append, (h x).eq hio]
    omega

/-- The indirect blocks under the inode have different numbers. -/
structure TreesApart (g : Geometry) (v : PtrBlocks) (ib : ℕ → ℤ) : Prop where
  nodup : ∀ level, level < ufsNiaddr → (nodes g.nindir v (level + 1) (ib level)).Nodup
  disjoint : ∀ i j, i < j → j < ufsNiaddr → ∀ q ∈ nodes g.nindir v (i + 1) (ib i),
    q ∉ nodes g.nindir v (j + 1) (ib j)

/-- The number of blocks in front of those below the indirect block `level`. -/
def Geometry.firstBlock (g : Geometry) (level : ℕ) : ℕ :=
  ufsNdaddr + ∑ j ∈ Finset.range level, g.nindir ^ (j + 1)

theorem firstBlock_succ (level : ℕ) :
    g.firstBlock (level + 1) = g.firstBlock level + g.nindir ^ (level + 1) := by
  rw [Geometry.firstBlock, Finset.sum_range_succ, ← Nat.add_assoc]
  rfl

theorem rawLastiblock_eq (g : Geometry) (lastblock : ℤ) (level : ℕ) :
    g.rawLastiblock lastblock level = lastblock - (g.firstBlock level : ℤ) := by
  induction level with
  | zero => rfl
  | succ level ih =>
    rw [Geometry.rawLastiblock, ih, firstBlock_succ]
    push_cast
    ring

theorem firstBlock_mono {i j : ℕ} (h : i ≤ j) : g.firstBlock i ≤ g.firstBlock j := by
  induction h with
  | refl => exact Nat.le_refl _
  | step _ ih =>
    rw [firstBlock_succ]
    omega

/-- What the inode names below its first `n` indirect blocks. -/
def indirUses (g : Geometry) (v : PtrBlocks) (ib : ℕ → ℤ) (n : ℕ) (x : ℤ) : ℕ :=
  ∑ level ∈ Finset.range n, fragUses g v (level + 1) (ib level) x

theorem keptIb_of_neg {level : ℕ} (h : lastblock < g.firstBlock level) :
    keptIb g lastblock ib level = 0 := by
  have hraw := rawLastiblock_eq g lastblock level
  rw [keptIb, Geometry.lastiblock, if_pos (show g.rawLastiblock lastblock level < 0 by omega)]
  rfl

theorem keptIb_of_le {level : ℕ} (h : (g.firstBlock level : ℤ) ≤ lastblock) :
    keptIb g lastblock ib level = ib level := by
  have hraw := rawLastiblock_eq g lastblock level
  rw [keptIb, Geometry.lastiblock, if_neg (show ¬ g.rawLastiblock lastblock level < 0 by omega),
    if_neg (by omega)]

/-- An indirect block behind the last block to keep is released with all that is below it. -/
theorem truncIndir_givesAll {level : ℕ} (h : lastblock < g.firstBlock level) :
    GivesAll g io (truncIndir g io lastblock ib level v) x
      (fragUses g v (level + 1) (ib level) x) := by
  have hraw := rawLastiblock_eq g lastblock level
  have hl : g.lastiblock lastblock level = -1 := if_pos (by omega)
  unfold truncIndir
  by_cases hbn : ib level = 0
  · rw [if_pos hbn, hbn, fragUses, uses_hole]
    exact GivesAll.nothing
  · rw [if_neg hbn, hl, if_pos (by decide), fragUses, uses_succ hbn, Nat.add_comm]
    exact (ffsIndirtrunc_givesAll level _ _).andThen (GivesAll.blkfree _)

/-- Of the indirect block with the last block to keep below it, what is behind that block. -/
theorem truncIndir_cutsTo {level m : ℕ} (h : lastblock = (g.firstBlock level + m : ℕ))
    (hm : m < g.nindir ^ (level + 1)) (hnodup : (nodes g.nindir v (level + 1) (ib level)).Nodup) :
    CutsTo g io (truncIndir g io lastblock ib level v) v (level + 1) (ib level) m := by
  have hraw := rawLastiblock_eq g lastblock level
  have hl : g.lastiblock lastblock level = (m : ℕ) := by
    rw [Geometry.lastiblock, if_neg (by omega)]
    omega
  unfold truncIndir
  by_cases hbn : ib level = 0
  · rw [if_pos hbn]
    exact CutsTo.nothing (.inr hbn)
  · rw [if_neg hbn, hl, if_neg (by omega), andThen_nothing]
    exact ffsIndirtrunc_cutsTo level v _ _ hbn hnodup hm

/-- The loop over the indirect blocks: it does not panic, and keeps the blocks of the file up to
`lastblock`. -/
theorem truncIndirs_spec {db₀ db₁ : ℤ → ℕ} (direct : Option (Released ε)) (h : TreesApart g v ib)
    (hdirect : lastblock < ufsNdaddr → ∃ r, direct = some r ∧
      ∀ x, ∃ n, GivesAll g io r x n ∧ db₁ x + n = db₀ x)
    (hkept : ufsNdaddr ≤ lastblock → ∀ x, db₁ x = db₀ x) {n : ℕ} (hn : n ≤ ufsNiaddr)
    (hlast : lastblock < g.firstBlock n) :
    ∃ r, truncIndirs g io lastblock ib direct n v = some r ∧
      Splits g io r v (fun x => db₀ x + indirUses g v ib n x)
        (fun w x => db₁ x + indirUses g w (keptIb g lastblock ib) n x) ∧
      ((∀ lbn, io.bread lbn = none) → ∀ level, level < n → ∀ k, k < g.nindir ^ (level + 1) →
        leaf g.nindir (writeOps r.ops v) (level + 1) (keptIb g lastblock ib level) k =
          if (g.firstBlock level + k : ℤ) ≤ lastblock then leaf g.nindir v (level + 1) (ib level) k
          else 0) := by
  induction n with
  | zero =>
    obtain ⟨r, heq, hgives⟩ := hdirect hlast
    choose m hm hsum using hgives
    refine ⟨r, heq, Splits.of_gives hm fun x => ?_, fun _ level hl => absurd hl (Nat.not_lt_zero _)⟩
    show db₁ x + 0 + m x = db₀ x + 0
    rw [Nat.add_zero, Nat.add_zero, hsum]
  | succ n ih =>
    have hraw := rawLastiblock_eq g lastblock n
    by_cases hneg : lastblock < g.firstBlock n
    · -- all that is below the block is released
      have hl : g.lastiblock lastblock n = -1 := if_pos (by omega)
      have hgives : ∀ x, GivesAll g io (truncIndir g io lastblock ib n v) x
          (fragUses g v (n + 1) (ib n) x) := fun x => truncIndir_givesAll hneg
      have hrun : writeOps (truncIndir g io lastblock ib n v).ops v = v :=
        (hgives 0).noWrite.writeOps
      obtain ⟨r', heq, hsplits, hleaves⟩ := ih (by omega) hneg
      have hsum : ∀ w x, indirUses g w (keptIb g lastblock ib) (n + 1) x =
          indirUses g w (keptIb g lastblock ib) n x := by
        intro w x
        rw [indirUses, Finset.sum_range_succ, keptIb_of_neg hneg, fragUses, uses_hole, Nat.add_zero]
        rfl
      have hbefore : ∀ x, fragUses g v (n + 1) (ib n) x + (db₀ x + indirUses g v ib n x) =
          db₀ x + indirUses g v ib (n + 1) x := by
        intro x
        rw [indirUses, indirUses, Finset.sum_range_succ]
        omega
      refine ⟨(truncIndir g io lastblock ib n v).andThen r', ?_, ?_,
        fun hio level hlevel k hk => ?_⟩
      · rw [truncIndirs, hl, if_neg (by decide), hrun, heq]
        rfl
      · simp only [hsum, ← hbefore]
        exact Splits.after_gives hgives hsplits
      · show leaf _ (writeOps (_ ++ r'.ops) v) _ _ _ = _
        rw [writeOps_append, hrun]
        rcases Nat.lt_succ_iff_lt_or_eq.mp hlevel with hlt | rfl
        · exact hleaves hio level hlt k hk
        · rw [keptIb_of_neg hneg, leaf_hole, if_neg (by omega)]
    · -- the blocks up to the last one below it are kept, and so is all in front of them
      obtain ⟨m, hm⟩ : ∃ m : ℕ, lastblock = (g.firstBlock n + m : ℕ) :=
        ⟨(lastblock - g.firstBlock n).toNat, by omega⟩
      have hlt : m < g.nindir ^ (n + 1) := by
        rw [firstBlock_succ] at hlast
        omega
      have hib : ∀ level, level ≤ n → keptIb g lastblock ib level = ib level := by
        intro level hlevel
        have := firstBlock_mono (g := g) hlevel
        exact keptIb_of_le (by omega)
      have hcut : CutsTo g io (truncIndir g io lastblock ib n v) v (n + 1) (ib n) m :=
        truncIndir_cutsTo hm hlt (h.nodup n (by omega))
      generalize hr : truncIndir g io lastblock ib n v = r at hcut
      have hother : ∀ pre, pre <+: r.ops → ∀ level, level < n →
          ∀ q ∈ nodes g.nindir v (level + 1) (ib level), writeOps pre v q = v q :=
        fun pre hpre level hlevel q hq =>
          hcut.frame pre hpre q (h.disjoint level n hlevel (by omega) q hq)
      have hsum : ∀ pre, pre <+: r.ops → ∀ x,
          indirUses g (writeOps pre v) (keptIb g lastblock ib) (n + 1) x =
            indirUses g v ib n x + fragUses g (writeOps pre v) (n + 1) (ib n) x := by
        intro pre hpre x
        rw [indirUses, Finset.sum_range_succ, hib n (Nat.le_refl n), indirUses]
        congr 1
        refine Finset.sum_congr rfl fun level hlevel => ?_
        have hlt := Finset.mem_range.mp hlevel
        rw [hib level hlt.le]
        exact uses_congr (hother pre hpre level hlt)
      have hbefore : ∀ x, indirUses g v ib (n + 1) x =
          indirUses g v ib n x + fragUses g v (n + 1) (ib n) x := fun x =>
        Finset.sum_range_succ _ _
      have hdb := hkept (by
        have := firstBlock_mono (g := g) (Nat.zero_le n)
        have hzero : g.firstBlock 0 = ufsNdaddr := rfl
        omega)
      refine ⟨r, ?_, ⟨fun pre hpre x => ?_, fun hio x => ?_⟩, fun hio level hlevel k hk => ?_⟩
      · have hl : 0 ≤ g.lastiblock lastblock n := by
          rw [Geometry.lastiblock, if_neg (by omega)]
          omega
        rw [truncIndirs, if_pos hl, hr]
      · have := hcut.bound pre hpre x
        rw [hsum pre hpre, hbefore, hdb]
        omega
      · have := hcut.exact hio x
        rw [hsum r.ops (List.prefix_refl _), hbefore, hdb]
        omega
      · rcases Nat.lt_succ_iff_lt_or_eq.mp hlevel with hless | rfl
        · have hmono := firstBlock_mono (g := g) (Nat.succ_le_of_lt hless)
          rw [firstBlock_succ] at hmono
          rw [hib level hless.le, if_pos (by omega),
            leaf_congr (hother r.ops (List.prefix_refl _) level hless) hk]
        · rw [hib level (Nat.le_refl _), hcut.leaves hio k hk]
          by_cases hkm : k ≤ m
          · rw [if_pos hkm, if_pos (by omega)]
          · rw [if_neg hkm, if_neg (by omega)]

end Levels

section Truncate

variable {ε : Type} {g : Geometry} {io : TruncIo ε} {v : PtrBlocks} {db ib : ℕ → ℤ}
  {osize length : ℕ} {lastblock : ℤ}

theorem truncDirects_tallied (n : ℕ) :
    Tallied g (truncDirects g db osize lastblock n : Released ε) := by
  induction n with
  | zero => exact Tallied.nothing
  | succ n ih =>
    rw [truncDirects]
    split
    · refine Tallied.andThen ?_ ih
      split
      · exact Tallied.nothing
      · exact Tallied.blkfree _ (fsize_dvd_blksize _ _)
    · exact Tallied.nothing

theorem truncLast_tallied {r : Released ε} (h : truncLast g db osize length lastblock = some r) :
    Tallied g r := by
  simp only [truncLast] at h
  split at h
  · obtain rfl := Option.some.inj h
    exact Tallied.nothing
  split at h
  · obtain rfl := Option.some.inj h
    exact Tallied.nothing
  split at h
  · cases h
  split at h
  · obtain rfl := Option.some.inj h
    exact Tallied.blkfree _ (Nat.dvd_sub (fsize_dvd_blksize _ _) (fsize_dvd_blksize _ _))
  · obtain rfl := Option.some.inj h
    exact Tallied.nothing

theorem truncIndirs_tallied {direct : Option (Released ε)}
    (hdirect : ∀ r, direct = some r → Tallied g r) (n : ℕ) (v : PtrBlocks) {r : Released ε}
    (h : truncIndirs g io lastblock ib direct n v = some r) : Tallied g r := by
  induction n generalizing v r with
  | zero => exact hdirect r h
  | succ n ih =>
    have hturn : Tallied g (truncIndir g io lastblock ib n v) := by
      unfold truncIndir
      dsimp only
      split
      · exact Tallied.nothing
      · refine (ffsIndirtrunc_tallied _ _ _ _ _).andThen ?_
        split
        · exact Tallied.blkfree _ (fsize_dvd_bsize g)
        · exact Tallied.nothing
    rw [truncIndirs] at h
    split at h
    · obtain rfl := Option.some.inj h
      exact hturn
    · obtain ⟨r', hr', rfl⟩ := Option.map_eq_some_iff.mp h
      exact hturn.andThen (ih _ hr')

/-- How often a file names a fragment. -/
def inodeUses (g : Geometry) (v : PtrBlocks) (size : ℕ) (db ib : ℕ → ℤ) (x : ℤ) : ℕ :=
  directUses g size db x + indirUses g v ib ufsNiaddr x

theorem maxfilesize_lt (g : Geometry) : g.maxfilesize < g.firstBlock ufsNiaddr * g.bsize := by
  have hpos : 0 < g.bsize * ufsNdaddr := Nat.mul_pos g.bsize_pos (by decide)
  rw [Geometry.maxfilesize, Geometry.firstBlock, Nat.mul_comm _ g.bsize, Nat.mul_add,
    Finset.mul_sum]
  omega

/-- A file that gets shorter, and its new inode, which `ffs_update` wrote before. Nothing panics,
and `blocksreleased` counts the sectors that are released. At any moment the new inode, with the
pointers written so far, names a fragment no more often, together with its releases, than the old
file did. If the indirect blocks can be read, it is as often in the end, and below each indirect
block the new file has the blocks of the old one up to its last block and no others. -/
theorem truncRelease_spec (io : TruncIo ε) (db : ℕ → ℤ) (h : TreesApart g v ib)
    (hlt : length < osize) (hmax : length ≤ g.maxfilesize) :
    ∃ r, truncRelease g io v db ib osize length = some r ∧ Tallied g r ∧
      (∀ pre, pre <+: r.ops → ∀ x, inodeUses g (writeOps pre v) length
        (keptDb (g.lastblock length) db) (keptIb g (g.lastblock length) ib) x + given g pre x ≤
          inodeUses g v osize db ib x) ∧
      ((∀ lbn, io.bread lbn = none) →
        (∀ x, inodeUses g (writeOps r.ops v) length (keptDb (g.lastblock length) db)
          (keptIb g (g.lastblock length) ib) x + given g r.ops x = inodeUses g v osize db ib x) ∧
        ∀ level, level < ufsNiaddr → ∀ k, k < g.nindir ^ (level + 1) →
          leaf g.nindir (writeOps r.ops v) (level + 1) (keptIb g (g.lastblock length) ib level) k =
            if (g.firstBlock level + k : ℤ) ≤ g.lastblock length then
              leaf g.nindir v (level + 1) (ib level) k
            else 0) := by
  have hkept : (ufsNdaddr : ℤ) ≤ g.lastblock length → ∀ x,
      directUses g length (keptDb (g.lastblock length) db) x = directUses g osize db x := by
    intro hle x
    rcases lastblock_spec g length with ⟨-, hnone⟩ | ⟨m, hm, hbegin, -⟩
    · omega
    · refine Finset.sum_congr rfl fun i hi => ?_
      have hi := Finset.mem_range.mp hi
      have hmul : (i + 1) * g.bsize ≤ m * g.bsize := Nat.mul_le_mul_right _ (by omega)
      rw [keptDb, if_neg (by omega), blksize_whole (by omega), blksize_whole (by omega)]
  have hlast : g.lastblock length < g.firstBlock ufsNiaddr := by
    have hlarge := maxfilesize_lt g
    rcases lastblock_spec g length with ⟨-, hnone⟩ | ⟨m, hm, hbegin, -⟩
    · omega
    · have hm' : m < g.firstBlock ufsNiaddr :=
        Nat.lt_of_mul_lt_mul_right (a := g.bsize) (by omega)
      omega
  obtain ⟨r, heq, hsplits, hleaves⟩ := truncIndirs_spec
    ((truncLast g db osize length (g.lastblock length)).map
      (truncDirects g db osize (g.lastblock length) ufsNdaddr).andThen) h
    (fun hl => direct_spec io db hlt hl) hkept (Nat.le_refl _) hlast
  have htally : Tallied g r := by
    refine truncIndirs_tallied (fun r' hr' => ?_) _ _ heq
    obtain ⟨last, hl, rfl⟩ := Option.map_eq_some_iff.mp hr'
    exact (truncDirects_tallied _).andThen (truncLast_tallied hl)
  refine ⟨Released.andThen ⟨[], 0, io.update.or io.vtruncbuf⟩ r, ?_, ?_, hsplits.bound,
    fun hio => ⟨hsplits.exact hio, hleaves hio⟩⟩
  · rw [truncRelease, heq]
    rfl
  · exact Tallied.andThen (Nat.zero_mul _).symm htally

end Truncate

section Example

/-- An indirect block with three pointers. -/
def threeBehind : PtrBlocks := fun bn i => if bn = 100 ∧ i < 3 then 102 + 2 * i else 0

/-- The indirect blocks of the file. -/
def oneIndirect (level : ℕ) : ℤ := if level = 0 then 100 else 0

/-- A file of 15 blocks of two fragments, of which 13 are kept, the last one with 5 bytes. -/
theorem truncRelease_spec_small : ∃ r : Released ℕ, truncRelease .pair
      ⟨fun _ => none, fun _ => none, none, none⟩ threeBehind (fun i => 2 * i + 2) oneIndirect
      (15 * 16384) (12 * 16384 + 5) = some r ∧
    ∀ x, inodeUses .pair (writeOps r.ops threeBehind) (12 * 16384 + 5)
      (keptDb 12 fun i => 2 * i + 2) (keptIb .pair 12 oneIndirect) x + given .pair r.ops x =
        inodeUses .pair threeBehind (15 * 16384) (fun i => 2 * i + 2) oneIndirect x := by
  have hapart : TreesApart .pair threeBehind oneIndirect := by
    refine ⟨fun level hlevel => ?_, fun i j hij hj q hq => ?_⟩
    · by_cases hz : level = 0
      · rw [hz]
        simp [nodes, oneIndirect, List.flatMap_eq_nil_iff.mpr]
      · rw [oneIndirect, if_neg hz, nodes_hole]
        exact List.nodup_nil
    · rw [oneIndirect, if_neg (by omega), nodes_hole]
      exact List.not_mem_nil
  obtain ⟨r, heq, -, -, hexact⟩ := truncRelease_spec ⟨fun _ => none, fun _ => none, none, none⟩
    (fun i => 2 * i + 2) hapart (show 12 * 16384 + 5 < 15 * 16384 by decide) (by decide)
  exact ⟨r, heq, (hexact fun _ => rfl).1⟩

end Example

end EmbeddedOs.Ddfs
