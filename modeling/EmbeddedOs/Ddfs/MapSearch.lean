import EmbeddedOs.Ddfs.CylinderGroup
import EmbeddedOs.Ddfs.FragTables

/-!
# The search for a fragment

`ffs_mapsearch` finds a fragment of a size in two steps. `scanc` finds a byte of the free map
that has one, by the table for the number of fragments in a block, and then the patterns
`around` and `inside` find its place in the byte. The search panics if either step fails; it
does not where the group has a fragment of the size.
-/

namespace EmbeddedOs.Ddfs

open Lib BitRuns

/-- The loop of `ffs_mapsearch` over the places in a block. -/
def siftBlock (blk : ℕ) : ℕ → ℕ → ℕ → ℕ → Option ℕ
  | 0, _, _, _ => none
  | n + 1, pos, field, subfield =>
    if blk &&& field = subfield then some pos
    else siftBlock blk n (pos + 1) (field <<< 1) (subfield <<< 1)

/-- The place of a fragment of `allocsiz` in a block. -/
def fragPlace (frag blk allocsiz : ℕ) : Option ℕ :=
  siftBlock (blk <<< 1) (frag - allocsiz + 1) 0 (around allocsiz) (inside allocsiz)

/-- The loop of `ffs_mapsearch` over the blocks in a byte. -/
def siftByte (frag allocsiz : ℕ) (blksfree : BitMap) : ℕ → ℕ → Option ℕ
  | 0, _ => none
  | n + 1, bno =>
    match fragPlace frag (blkmap frag blksfree bno) allocsiz with
    | some pos => some (bno + pos)
    | none => siftByte frag allocsiz blksfree n (bno + frag)

/-- The table of `scanc`. -/
def fragbyte (frag : ℕ) (b : BitVec 8) : BitVec 8 := BitVec.ofNat 8 (fragtbl frag b.toNat)

/-- The mask of `scanc`. -/
def fragmask (frag allocsiz : ℕ) : BitVec 8 := BitVec.ofNat 8 (1 <<< (allocsiz - 1 + frag % 8))

/-- The two calls of `scanc` in `ffs_mapsearch`: the byte that is found. -/
def mapByte (fpg frag allocsiz : ℕ) (blksfree : BitMap) (start : ℕ) : Option ℕ :=
  let len := howmany fpg 8 - start
  let loc := BitMap.scanc (fragbyte frag) (fragmask frag allocsiz) blksfree len start
  if loc ≠ 0 then some (start + len - loc)
  else
    let len := start + 1
    let loc := BitMap.scanc (fragbyte frag) (fragmask frag allocsiz) blksfree len 0
    -- `ffs_alloccg: map corrupted`
    if loc = 0 then none else some (0 + len - loc)

/-- `ffs_mapsearch`; it is none where the code panics. -/
def ffsMapsearch (l : FsLayout) (cgp : Cg) (bpref allocsiz : ℕ) : Option (Cg × ℕ) :=
  let start := (if bpref ≠ 0 then l.dtogd bpref else cgp.frotor) / 8
  match mapByte l.fpg l.frag allocsiz cgp.blksfree start with
  | none => none
  | some byte =>
    match siftByte l.frag allocsiz cgp.blksfree (8 / l.frag) (byte * 8) with
    -- `ffs_alloccg: block not in map`
    | none => none
    | some bno => some ({ cgp with frotor := byte * 8 }, bno)

/-- A free fragment of `k` in the map: a maximal run of free fragments within a block. -/
structure IsFrag (frag : ℕ) (m : BitMap) (bno k : ℕ) : Prop where
  /-- It is in one block. -/
  fits : bno % frag + k ≤ frag
  /-- It is free. -/
  free : ∀ j, j < k → m.isset (bno + j) = true
  /-- It does not begin before. -/
  left : bno % frag = 0 ∨ m.isset (bno - 1) = false
  /-- It does not end behind. -/
  right : bno % frag + k = frag ∨ m.isset (bno + k) = false

/-- The table marks a byte for a size if one of its blocks has a fragment of it. -/
theorem fragbyte_marks_aux : ∀ e : Fin 4, ∀ b : BitVec 8, ∀ k : Fin (2 ^ e.val),
    (fragbyte (2 ^ e.val) b &&& fragmask (2 ^ e.val) (k.val + 1) ≠ 0) ↔
      ∃ q : Fin (8 / 2 ^ e.val),
        k.val + 1 ∈ runs (seg (fun i => b.getLsbD i) (q.val * 2 ^ e.val) (2 ^ e.val)) := by
  decide +kernel

/-- What `fragPlace` finds is a maximal run, and it finds one if there is one. -/
theorem fragPlace_aux : ∀ e : Fin 4, ∀ blk : Fin (2 ^ 2 ^ e.val), ∀ k : Fin (2 ^ e.val),
    (fragPlace (2 ^ e.val) blk (k.val + 1) = none → k.val + 1 ∉ runs (fragsOf (2 ^ e.val) blk)) ∧
      ∀ pos : Fin 9, fragPlace (2 ^ e.val) blk (k.val + 1) = some pos.val →
        pos.val + (k.val + 1) ≤ 2 ^ e.val ∧
        (∀ j : Fin (k.val + 1), blk.val.testBit (pos.val + j.val) = true) ∧
        (pos.val = 0 ∨ blk.val.testBit (pos.val - 1) = false) ∧
        blk.val.testBit (pos.val + (k.val + 1)) = false := by
  decide +kernel

theorem siftBlock_lt {blk n pos field subfield found : ℕ}
    (h : siftBlock blk n pos field subfield = some found) : found < pos + n := by
  induction n generalizing pos field subfield with
  | zero => exact absurd h (by simp [siftBlock])
  | succ n ih =>
    unfold siftBlock at h
    split at h
    · obtain rfl := Option.some.inj h
      omega
    · have := ih h
      omega

section Search

variable {g : Geometry} {m : BitMap} {h k n bno byte fpg start found : ℕ}

/-- The place that is found has a maximal run. -/
theorem fragPlace_some {blk pos : ℕ} (hblk : blk < 2 ^ g.frag) (h1 : 1 ≤ k) (hk : k ≤ g.frag)
    (hpos : fragPlace g.frag blk k = some pos) :
    pos + k ≤ g.frag ∧ (∀ j, j < k → blk.testBit (pos + j) = true) ∧
      (pos = 0 ∨ blk.testBit (pos - 1) = false) ∧ blk.testBit (pos + k) = false := by
  have hle := g.frag_le
  have hlt : pos < 0 + (g.frag - k + 1) := siftBlock_lt hpos
  obtain ⟨k, rfl⟩ := Nat.exists_eq_add_of_le' h1
  obtain ⟨hfits, hset, hleft, hright⟩ :=
    (fragPlace_aux ⟨g.fragshift, Nat.lt_succ_of_le g.fragshift_le⟩ ⟨blk, hblk⟩
      ⟨k, hk⟩).2 ⟨pos, by omega⟩ hpos
  exact ⟨hfits, fun j hj => hset ⟨j, hj⟩, hleft, hright⟩

/-- What is found in a block of the map is a fragment. -/
theorem fragPlace_isFrag (h1 : 1 ≤ k) (hk : k ≤ g.frag) {pos : ℕ}
    (hpos : fragPlace g.frag (blkmap g.frag m (h * g.frag)) k = some pos) :
    IsFrag g.frag m (h * g.frag + pos) k := by
  obtain ⟨hfits, hset, hleft, hright⟩ := fragPlace_some (blkmap_lt g m _) h1 hk hpos
  have hmod : (h * g.frag + pos) % g.frag = pos := by
    rw [Nat.mul_add_mod', Nat.mod_eq_of_lt (by omega)]
  constructor
  · rwa [hmod]
  · intro j hj
    have := hset j hj
    rw [testBit_blkmap, decide_eq_true (by omega), Bool.true_and] at this
    rwa [Nat.add_assoc]
  · rw [hmod]
    rcases Nat.eq_zero_or_pos pos with hz | hpos0
    · exact Or.inl hz
    · right
      have hclr := hleft.resolve_left (by omega)
      rw [testBit_blkmap, decide_eq_true (by omega), Bool.true_and] at hclr
      have heq : h * g.frag + pos - 1 = h * g.frag + (pos - 1) := by omega
      rwa [heq]
  · rw [hmod]
    rcases Nat.eq_or_lt_of_le hfits with heq | hin
    · exact Or.inl heq
    · right
      rw [testBit_blkmap, decide_eq_true hin, Bool.true_and] at hright
      rwa [Nat.add_assoc]

/-- A block that has a fragment of a size is not passed. -/
theorem fragPlace_ne_none (h1 : 1 ≤ k) (hk : k ≤ g.frag)
    (hmem : k ∈ runs (blockFrags g.frag m h)) :
    ∃ pos, fragPlace g.frag (blkmap g.frag m (h * g.frag)) k = some pos := by
  obtain ⟨k, rfl⟩ := Nat.exists_eq_add_of_le' h1
  rw [← Option.ne_none_iff_exists']
  intro hnone
  have := (fragPlace_aux ⟨g.fragshift, Nat.lt_succ_of_le g.fragshift_le⟩ ⟨_, blkmap_lt g m _⟩
    ⟨k, hk⟩).1 hnone
  rw [← fragsOf_blkmap] at hmem
  exact this hmem

/-- The blocks of a byte are searched for a fragment of the size. -/
theorem siftByte_spec (h1 : 1 ≤ k) (hk : k ≤ g.frag)
    (hex : ∃ q, q < n ∧ k ∈ runs (blockFrags g.frag m (h + q))) :
    ∃ bno, siftByte g.frag k m n (h * g.frag) = some bno ∧ IsFrag g.frag m bno k ∧
      h * g.frag ≤ bno ∧ bno < (h + n) * g.frag := by
  induction n generalizing h with
  | zero =>
    obtain ⟨q, hq, -⟩ := hex
    omega
  | succ n ih =>
    unfold siftByte
    cases hplace : fragPlace g.frag (blkmap g.frag m (h * g.frag)) k with
    | some pos =>
      have hisfrag := fragPlace_isFrag h1 hk hplace
      have hlt : pos < 0 + (g.frag - k + 1) := siftBlock_lt hplace
      refine ⟨h * g.frag + pos, rfl, hisfrag, by omega, ?_⟩
      have hmul : (h + (n + 1)) * g.frag = h * g.frag + (n * g.frag + g.frag) := by ring
      rw [hmul]
      omega
    | none =>
      have hstep : h * g.frag + g.frag = (h + 1) * g.frag := by ring
      obtain ⟨q, hq, hmem⟩ := hex
      have hq0 : q ≠ 0 := by
        rintro rfl
        obtain ⟨pos, hpos⟩ := fragPlace_ne_none h1 hk hmem
        rw [Nat.add_zero, hplace] at hpos
        exact absurd hpos (by simp)
      have hnext : h + 1 + (q - 1) = h + q := by omega
      obtain ⟨bno, hbno, hisfrag, hlow, hhigh⟩ :=
        ih (h := h + 1) ⟨q - 1, by omega, by rwa [hnext]⟩
      have hend : h + 1 + n = h + (n + 1) := by omega
      rw [hend] at hhigh
      refine ⟨bno, by rw [hstep]; exact hbno, hisfrag, ?_, hhigh⟩
      exact (Nat.mul_le_mul_right _ (Nat.le_succ h)).trans hlow

theorem byte_blocks (g : Geometry) (byte : ℕ) : byte * (8 / g.frag) * g.frag = byte * 8 := by
  rw [Nat.mul_assoc, Nat.div_mul_cancel g.frag_dvd]

/-- The blocks in a byte. -/
theorem blockFrags_byte (byte q : ℕ) (hq : q < 8 / g.frag) :
    blockFrags g.frag m (byte * (8 / g.frag) + q) =
      seg (fun i => (m byte).getLsbD i) (q * g.frag) g.frag := by
  refine seg_congr fun i hi => ?_
  have hmul : (q + 1) * g.frag ≤ 8 / g.frag * g.frag := Nat.mul_le_mul_right _ hq
  rw [Nat.div_mul_cancel g.frag_dvd, Nat.succ_mul] at hmul
  have hdist : (byte * (8 / g.frag) + q) * g.frag + i = byte * 8 + (q * g.frag + i) := by
    rw [Nat.add_mul, byte_blocks, Nat.add_assoc]
  rw [hdist, BitMap.getLsbD_eq_isset m (by omega)]

/-- A byte has a fragment of a size if one of its blocks does. -/
def ByteHas (g : Geometry) (m : BitMap) (k byte : ℕ) : Prop :=
  ∃ q, q < 8 / g.frag ∧ k ∈ runs (blockFrags g.frag m (byte * (8 / g.frag) + q))

/-- The table tells for each byte and each size whether the byte has a fragment of it. -/
theorem fragbyte_marks (h1 : 1 ≤ k) (hk : k ≤ g.frag) :
    fragbyte g.frag (m byte) &&& fragmask g.frag k ≠ 0 ↔ ByteHas g m k byte := by
  obtain ⟨k, rfl⟩ := Nat.exists_eq_add_of_le' h1
  have haux := fragbyte_marks_aux ⟨g.fragshift, Nat.lt_succ_of_le g.fragshift_le⟩ (m byte) ⟨k, hk⟩
  refine haux.trans ⟨?_, ?_⟩
  · rintro ⟨q, hq⟩
    exact ⟨q.val, q.isLt, by rw [blockFrags_byte byte q.val q.isLt]; exact hq⟩
  · rintro ⟨q, hlt, hq⟩
    rw [blockFrags_byte byte q hlt] at hq
    exact ⟨⟨q, hlt⟩, hq⟩

theorem byteHas_of_scanc {cp : ℕ} (h1 : 1 ≤ k) (hk : k ≤ g.frag)
    (hloc : BitMap.scanc (fragbyte g.frag) (fragmask g.frag k) m n cp ≠ 0) :
    ByteHas g m k (cp + n - BitMap.scanc (fragbyte g.frag) (fragmask g.frag k) m n cp) :=
  (fragbyte_marks h1 hk).mp (BitMap.scanc_marked hloc)

theorem not_byteHas_of_scanc {b p : ℕ} (h1 : 1 ≤ k) (hk : k ≤ g.frag) (hcp : p ≤ b)
    (hbyte : b < p + n - BitMap.scanc (fragbyte g.frag) (fragmask g.frag k) m n p) :
    ¬ ByteHas g m k b := fun hhas =>
  (fragbyte_marks h1 hk).mpr hhas (BitMap.scanc_first hcp hbyte)

/-- The bytes of a group in the order in which `ffs_mapsearch` visits them from `start` on. -/
def Before (start fpg byte byte' : ℕ) : Prop :=
  (byte + (howmany fpg 8 - start)) % howmany fpg 8 <
    (byte' + (howmany fpg 8 - start)) % howmany fpg 8

/-- The byte that is found is the first one from `start` on, around the end of the map, that has
a fragment of the size. -/
theorem mapByte_spec (h1 : 1 ≤ k) (hk : k ≤ g.frag) (hstart : start < howmany fpg 8)
    (hhas : ByteHas g m k byte) (hbyte : byte < howmany fpg 8) :
    ∃ found, mapByte fpg g.frag k m start = some found ∧ ByteHas g m k found ∧
      found < howmany fpg 8 ∧
      ∀ b, b < howmany fpg 8 → Before start fpg b found → ¬ ByteHas g m k b := by
  have hlen : start + (howmany fpg 8 - start) = howmany fpg 8 := by omega
  by_cases hloc : BitMap.scanc (fragbyte g.frag) (fragmask g.frag k) m
      (howmany fpg 8 - start) start = 0
  · by_cases hloc' : BitMap.scanc (fragbyte g.frag) (fragmask g.frag k) m (start + 1) 0 = 0
    · -- no byte is left
      exfalso
      rcases Nat.lt_or_ge byte start with hlt | hge
      · exact not_byteHas_of_scanc h1 hk (Nat.zero_le byte) (n := start + 1) (by omega) hhas
      · exact not_byteHas_of_scanc h1 hk hge (n := howmany fpg 8 - start) (by omega) hhas
    · have hle := BitMap.scanc_le (fragbyte g.frag) (fragmask g.frag k) m (start + 1) 0
      have hfound := byteHas_of_scanc h1 hk hloc'
      have hbefore := fun b hb => not_byteHas_of_scanc (g := g) (m := m) (b := b) (p := 0)
        (n := start + 1) h1 hk (Nat.zero_le b) hb
      generalize hf : 0 + (start + 1) -
        BitMap.scanc (fragbyte g.frag) (fragmask g.frag k) m (start + 1) 0 = found
        at hfound hbefore
      have hpass : ∀ b, start ≤ b → b < howmany fpg 8 → ¬ ByteHas g m k b := fun b hb hlt =>
        not_byteHas_of_scanc h1 hk hb (n := howmany fpg 8 - start) (by omega)
      have hlow : found < start := by
        by_contra hge
        exact hpass found (by omega) (by omega) hfound
      refine ⟨found, ?_, hfound, by omega, fun b hb hbe hhas' => ?_⟩
      · simp only [mapByte, hloc, hloc', hf, ne_eq, not_true, if_false]
      · rcases Nat.lt_or_ge b start with hbs | hbs
        · refine hbefore b ?_ hhas'
          have hb1 : (b + (howmany fpg 8 - start)) % howmany fpg 8 =
              b + (howmany fpg 8 - start) := Nat.mod_eq_of_lt (by omega)
          have hf1 : (found + (howmany fpg 8 - start)) % howmany fpg 8 =
              found + (howmany fpg 8 - start) := Nat.mod_eq_of_lt (by omega)
          unfold Before at hbe
          omega
        · exact hpass b hbs hb hhas'
  · have hle := BitMap.scanc_le (fragbyte g.frag) (fragmask g.frag k) m
      (howmany fpg 8 - start) start
    have hfound := byteHas_of_scanc h1 hk hloc
    have hbefore := fun b hcp hb => not_byteHas_of_scanc (g := g) (m := m) (b := b)
      (p := start) (n := howmany fpg 8 - start) h1 hk hcp hb
    generalize hf : start + (howmany fpg 8 - start) -
      BitMap.scanc (fragbyte g.frag) (fragmask g.frag k) m (howmany fpg 8 - start) start = found
      at hfound hbefore
    refine ⟨found, ?_, hfound, by omega, fun b hb hbe => ?_⟩
    · simp only [mapByte, hloc, hf, ne_eq, not_false_eq_true, if_true]
    · have hf1 : (found + (howmany fpg 8 - start)) % howmany fpg 8 = found - start := by
        have heq : found + (howmany fpg 8 - start) = found - start + howmany fpg 8 := by omega
        rw [heq, Nat.add_mod_right, Nat.mod_eq_of_lt (by omega)]
      rcases Nat.lt_or_ge b start with hbs | hbs
      · have hb1 : (b + (howmany fpg 8 - start)) % howmany fpg 8 =
            b + (howmany fpg 8 - start) := Nat.mod_eq_of_lt (by omega)
        unfold Before at hbe
        omega
      · have hb1 : (b + (howmany fpg 8 - start)) % howmany fpg 8 = b - start := by
          have heq : b + (howmany fpg 8 - start) = b - start + howmany fpg 8 := by omega
          rw [heq, Nat.add_mod_right, Nat.mod_eq_of_lt (by omega)]
        unfold Before at hbe
        exact hbefore b hbs (by omega)

/-- The block of a fragment is in the byte of the fragment. -/
theorem byteHas_of_block (hmem : k ∈ runs (blockFrags g.frag m h)) :
    ByteHas g m k (h * g.frag / 8) := by
  have hpos : 0 < 8 / g.frag := Nat.div_pos g.frag_le g.frag_pos
  have hbyte : h * g.frag / 8 = h / (8 / g.frag) := by
    conv_lhs => rw [← Nat.div_mul_cancel g.frag_dvd]
    exact Nat.mul_div_mul_right _ _ g.frag_pos
  refine ⟨h % (8 / g.frag), Nat.mod_lt _ hpos, ?_⟩
  rw [hbyte, Nat.div_add_mod']
  exact hmem

end Search

/-- `ffs_mapsearch` does not panic if a block of the group has a fragment of the size. It finds
one in the first byte from the preference on, around the end of the map, that has one, and
remembers the byte. -/
theorem ffsMapsearch_finds (l : FsLayout) (cgp : Cg) (bpref k : ℕ) (h1 : 1 ≤ k) (hk : k ≤ l.frag)
    (hrotor : cgp.frotor < l.fpg)
    (hex : ∃ h, h < l.blocks ∧ k ∈ runs (blockFrags l.frag cgp.blksfree h)) :
    ∃ bno, ffsMapsearch l cgp bpref k = some ({ cgp with frotor := bno / 8 * 8 }, bno) ∧
      IsFrag l.frag cgp.blksfree bno k ∧ bno / 8 < howmany l.fpg 8 ∧
      ∀ byte, byte < howmany l.fpg 8 →
        Before ((if bpref ≠ 0 then l.dtogd bpref else cgp.frotor) / 8) l.fpg byte (bno / 8) →
        ¬ ByteHas l.geom cgp.blksfree k byte := by
  have hbytes : l.fpg ≤ howmany l.fpg 8 * 8 := le_howmany_mul (by decide)
  have hstart : (if bpref ≠ 0 then l.dtogd bpref else cgp.frotor) / 8 < howmany l.fpg 8 := by
    have hlt : (if bpref ≠ 0 then l.dtogd bpref else cgp.frotor) < l.fpg := by
      split
      · exact l.dtogd_lt bpref
      · exact hrotor
    omega
  obtain ⟨h, hh, hmem⟩ := hex
  have hbyte : h * l.frag / 8 < howmany l.fpg 8 := by
    have hmul : (h + 1) * l.frag ≤ l.blocks * l.frag := Nat.mul_le_mul_right _ hh
    have hpos := l.frag_pos
    rw [l.blocks_mul, Nat.succ_mul] at hmul
    omega
  obtain ⟨byte, hfound, ⟨q, hq, hqmem⟩, hin, hfirst⟩ :=
    mapByte_spec h1 hk hstart (byteHas_of_block hmem) hbyte
  obtain ⟨bno, hsift, hisfrag, hlow, hhigh⟩ := siftByte_spec h1 hk ⟨q, hq, hqmem⟩
  have hdiv : bno / 8 = byte := by
    rw [byte_blocks] at hlow
    rw [Nat.add_mul, byte_blocks, Nat.div_mul_cancel l.geom.frag_dvd] at hhigh
    omega
  rw [byte_blocks] at hsift
  refine ⟨bno, ?_, hisfrag, by rwa [hdiv], by rwa [hdiv]⟩
  have hfound' : mapByte l.fpg l.frag k cgp.blksfree
      ((if bpref ≠ 0 then l.dtogd bpref else cgp.frotor) / 8) = some byte := hfound
  have hsift' : siftByte l.frag k cgp.blksfree (8 / l.frag) (byte * 8) = some bno := hsift
  simp only [ffsMapsearch, hfound', hsift', hdiv]

end EmbeddedOs.Ddfs
