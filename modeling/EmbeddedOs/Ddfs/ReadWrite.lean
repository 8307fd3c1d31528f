import EmbeddedOs.Ddfs.Layout
import EmbeddedOs.Ddfs.Soundness
import EmbeddedOs.Lib.Bytes
import Mathlib.Data.Set.Function

/-!
# Reading what was written

A successful write leaves the file with its old content, zero-extended, in which the
written range is replaced. For this the table has to be sound and to account for the
pointers: then a block that is switched to holds the bytes that were written, and a block
that is overwritten in place is the block of one pointer only.
-/

namespace EmbeddedOs.Ddfs

open Lib Lib.SlotTable Lib.Bytes

variable {ι : Type} {s t u : Fs ι} {f : ι} {lbn : Fin 12} {offset : ℕ} {xs ys : List UInt8}

/-! ## One iteration -/

/-- An iteration after which the file reads what was written: it hashes the block it writes,
a new key comes with a block without an entry, and a block that is given up has one reference
or no entry. `S` has the blocks on which the hash function has no collisions. -/
structure RywIter (sha1 : Block → Key) (S : Set Block) (s : Fs ι) (blk : ℤ) (blkoffset : ℕ)
    (chunk : List UInt8) (env : Env) (bp : Buf) : Prop where
  /-- The bytes that are hashed are those of the block. -/
  hashes : HashesBlock bp blkoffset chunk env
  /-- They collide with no other block. -/
  mem : (iterBuf bp blkoffset chunk env).data ∈ S
  /-- The table is kept in order. -/
  dedup : DedupOk s blk (iterKey sha1 bp blkoffset chunk env)
  /-- The block given up loses its entry. -/
  other : ∀ p e, findKey (iterKey sha1 bp blkoffset chunk env) s.table = some (p, e) →
    e.blockptr ≠ blk → ∀ q e', findBlock blk s.table = some (q, e') → e'.refCount = 1

theorem RywIter.soundIter {sha1 : Block → Key} {S : Set Block} {blk : ℤ} {blkoffset : ℕ}
    {chunk : List UInt8} {env : Env} {bp : Buf}
    (h : RywIter sha1 S s blk blkoffset chunk env bp) :
    SoundIter sha1 s blk blkoffset chunk env bp where
  new hkey := ⟨h.dedup.noSecond hkey, h.hashes⟩
  same _ _ _ _ := Or.inl h.hashes
  other p e hkey hne := Or.inl (h.other p e hkey hne)

/-- The table is sound and accounts for the pointers, and the files lie on the disk as they
should. -/
structure Consistent [Fintype ι] (sha1 : Block → Key) (S : Set Block) (s : Fs ι) : Prop where
  counted : Counted (· ≤ ·) s
  sound : Sound sha1 s
  stored : Stored S s
  layout : Layout s

variable [Fintype ι] [DecidableEq ι] {sha1 : Block → Key} {S : Set Block}

/-- The deduplication step and the write that follows it give the file the bytes of the
buffer. -/
theorem wrote_of_dedupBlock (hS : Set.InjOn sha1 S) (hcount : Counted (· ≤ ·) s)
    (hsound : Sound sha1 s) (hstored : Stored S s) {blkoffset : ℕ} {chunk : List UInt8} {env : Env}
    {bp : Buf} (hptr : s.ptr f lbn ≠ 0) (hblkno : bp.blkno = s.ptr f lbn)
    (hok : RywIter sha1 S s (s.ptr f lbn) blkoffset chunk env bp)
    (hdedup : dedupBlock s f lbn (iterKey sha1 bp blkoffset chunk env) env.entry = some t) :
    Wrote f lbn (iterBuf bp blkoffset chunk env).data s
        (t.bwrite f lbn (iterBuf bp blkoffset chunk env)) ∧
      Stored S (t.bwrite f lbn (iterBuf bp blkoffset chunk env)) := by
  have hblk : (iterBuf bp blkoffset chunk env).blkno = s.ptr f lbn := by
    rw [blkno_iterBuf, hblkno]
  -- the block of an entry that is found holds the bytes that are written
  have hfound : ∀ {p e}, findKey (iterKey sha1 bp blkoffset chunk env) s.table = some (p, e) →
      s.disk e.blockptr = (iterBuf bp blkoffset chunk env).data := by
    intro p e hkey
    obtain ⟨he, hek⟩ := inUse_of_findKey hkey
    apply hS (hstored p e he) hok.mem
    rw [← hsound.key he, hek]
    exact hok.hashes.iterKey_eq
  have hprivate : (∀ q e', findBlock (s.ptr f lbn) s.table = some (q, e') → e'.refCount = 1) →
      ∀ g i, s.ptr g i = s.ptr f lbn → g = f ∧ i = lbn :=
    fun hone g i hg => hcount.unshared hptr hone hg rfl
  rcases dedupBlock_cases hdedup with ⟨p, old, hkey, hfree, rfl⟩ | ⟨p, e, hkey, hsame, rfl⟩ |
    ⟨p, e, hkey, hother, rfl⟩
  · have hnone := hok.dedup.noSecond hkey
    have hone : ∀ q e', findBlock (s.ptr f lbn) s.table = some (q, e') → e'.refCount = 1 := by
      intro q e' hfind
      rw [hnone] at hfind
      cases hfind
    refine ⟨(Wrote.of_bwrite hptr hblk (Or.inl (hprivate hone))).congr_right rfl rfl rfl, ?_⟩
    intro q e' he'
    rcases (inUse_setSlot (slot_of_findFree hfree).1).mp he' with ⟨-, rfl, -⟩ | ⟨-, he'⟩
    · rw [Fs.disk_bwrite, if_pos hblk.symm]
      exact hok.mem
    · have hwrite : Stored S (s.bwrite f lbn (iterBuf bp blkoffset chunk env)) :=
        hstored.bwrite (Or.inl hok.mem)
      exact hwrite q e' he'
  · have hbytes := hfound hkey
    rw [hsame] at hbytes
    exact ⟨(Wrote.of_bwrite hptr hblk (Or.inr hbytes.symm)).congr_right rfl rfl rfl,
      (hstored.setCount (inUse_of_findKey hkey).1 _).bwrite (Or.inl hok.mem)⟩
  · obtain ⟨he, -⟩ := inUse_of_findKey hkey
    have hbytes := hfound hkey
    have hpriv := hprivate (hok.other p e hkey hother)
    refine ⟨⟨?_, ?_, ?_, fun {g i} hg => ?_, fun {g i} hg => ?_, fun {g i} hg hne => ?_⟩, ?_⟩
    · obtain ⟨m, hrep, hacc⟩ := hcount.accounts
      rw [Fs.ptr_bwrite, ptr_ffsBlkfree, Fs.ptr_setPtr_self]
      intro hzero
      exact hacc.hole_holds (hrep.holds_iff.mpr ⟨p, e, he, hzero⟩)
    · rw [Fs.ptr_bwrite, ptr_ffsBlkfree, Fs.ptr_setPtr_self, Fs.disk_bwrite, hblk,
        if_neg hother, disk_ffsBlkfree]
      exact hbytes
    · simp [Fs.bufs_bwrite]
    · rw [Fs.bufs_bwrite, if_neg hg, bufs_ffsBlkfree]
      rfl
    · rw [Fs.ptr_bwrite, ptr_ffsBlkfree, Fs.ptr_setPtr, if_neg hg]
      rfl
    · rw [Fs.disk_bwrite, hblk, if_neg (fun hb => hg (hpriv g i hb)), disk_ffsBlkfree]
      rfl
    · apply Stored.bwrite _ (Or.inl hok.mem)
      apply Stored.ffsBlkfree
      exact hstored.setCount he _

/-- The guard for reading what was written. -/
def wholeBlocks (ι : Type) [DecidableEq ι] (sha1 : Block → Key) (S : Set Block) : Guard ι where
  iter := IterWrite fun _ s₁ f lbn => RywIter sha1 S s₁ (s₁.ptr f lbn)
  trunc := (keysSound ι sha1).trunc

/-- An iteration that gets its block gives the file the bytes of the buffer. -/
theorem Consistent.wrote_of_iter (hS : Set.InjOn sha1 S) (h : Consistent sha1 S s) {blkoffset : ℕ}
    {chunk : List UInt8} {env : Env} {s₁ t' : Fs ι} {bp : Buf} {n : ℕ}
    (hguard : (wholeBlocks ι sha1 S).iter s f lbn blkoffset chunk env)
    (hballoc : ffsBalloc s f lbn (blkoffset + chunk.length) (chunk.length < 4096) env =
      some (.ok (s₁, bp)))
    (hdedup : dedupBlock (s₁.grow f n) f lbn (iterKey sha1 bp blkoffset chunk env) env.entry =
      some t') :
    Wrote f lbn (iterBuf bp blkoffset chunk env).data s
        (t'.bwrite f lbn (iterBuf bp blkoffset chunk env)) ∧
      Stored S (t'.bwrite f lbn (iterBuf bp blkoffset chunk env)) := by
  have hok := hguard s₁ bp hballoc
  have hstored₁ : Stored S (s₁.grow f n) := by
    apply h.stored.of_table
    · rw [Fs.disk_grow]
      exact (Frame.ffsBalloc hballoc).disk
    · intro p e he
      rw [Fs.table_grow] at he
      rcases ffsBalloc_state hballoc with ⟨-, rfl⟩ | ⟨-, newb, -, rfl⟩ <;> exact ⟨p, e, he, rfl⟩
  have hcount₁ : Counted (· ≤ ·) (s₁.grow f n) :=
    (h.counted.ffsBalloc hballoc).congr (by simp) (by funext g j; simp) (by simp) (by simp)
  have hsound₁ : Sound sha1 (s₁.grow f n) :=
    (h.sound.ffsBalloc hballoc).congr (by simp) (by simp) (by simp)
  obtain ⟨hw, hst⟩ := wrote_of_dedupBlock hS hcount₁ hsound₁ hstored₁
    (by simpa using ffsBalloc_ptr_ne_zero hballoc h.sound.boot)
    (by simpa using ffsBalloc_blkno hballoc)
    ⟨hok.hashes, hok.mem, ⟨by simpa using hok.dedup.noSecond, by simpa using hok.dedup.fits⟩,
      by simpa using hok.other⟩ hdedup
  refine ⟨Wrote.of_ffsBalloc hballoc (hw.congr_left ?_ ?_ ?_), hst⟩
  · funext g j
    simp
  · simp
  · simp

namespace Consistent

omit [DecidableEq ι] in
theorem of_fresh (h : Fresh s) : Consistent sha1 S s where
  counted := counted_of_fresh h
  sound := .of_fresh h
  stored p e he := by
    obtain ⟨n, hn⟩ := h.table
    rw [hn] at he
    exact absurd he not_inUse_mkfsTable
  layout := .of_fresh h

variable (sha1 S) in
/-- The accounting survives the guarded steps. -/
theorem counted_preserved : Preserved sha1 (wholeBlocks ι sha1 S) f (Counted (· ≤ ·)) :=
  Counted.noSecondEntry.mono
    (fun _ _ _ _ _ hguard s₁ bp hballoc => (hguard s₁ bp hballoc).dedup) (fun _ _ _ _ => trivial)

omit [Fintype ι] in
/-- The soundness of the table survives the guarded steps. -/
theorem sound_preserved : Preserved sha1 (wholeBlocks ι sha1 S) f (Sound sha1) :=
  Sound.preserved.mono (fun _ _ _ _ _ hguard s₁ bp hballoc => (hguard s₁ bp hballoc).soundIter)
    (fun _ _ _ hguard => hguard)

/-- An iteration keeps the layout. -/
theorem layout_of_iter (hS : Set.InjOn sha1 S) (h : Consistent sha1 S s) {blkoffset : ℕ}
    {chunk : List UInt8} {env : Env} {s₁ t' : Fs ι} {bp : Buf}
    (hlen : blkoffset + chunk.length ≤ 4096)
    (hguard : (wholeBlocks ι sha1 S).iter s f lbn blkoffset chunk env)
    (hballoc : ffsBalloc s f lbn (blkoffset + chunk.length) (chunk.length < 4096) env =
      some (.ok (s₁, bp)))
    (hdedup : dedupBlock (s₁.grow f (lbn.val * 4096 + blkoffset + chunk.length)) f lbn
      (iterKey sha1 bp blkoffset chunk env) env.entry = some t') :
    Layout (t'.bwrite f lbn (iterBuf bp blkoffset chunk env)) := by
  obtain ⟨hwrote, -⟩ := h.wrote_of_iter hS hguard hballoc hdedup
  have hsize : ∀ g, (t'.bwrite f lbn (iterBuf bp blkoffset chunk env)).size g =
      if g = f then max (s.size f) (lbn.val * 4096 + blkoffset + chunk.length) else s.size g := by
    intro g
    rw [Fs.size_bwrite, size_of_dedupBlock hdedup, Fs.size_grow, size_of_ffsBalloc hballoc]
  apply hwrote.layout h.layout
  · intro g
    rw [hsize]
    split
    · next hg =>
      rw [hg]
      exact Nat.le_max_left _ _
    · exact le_rfl
  · intro j hj
    rw [hsize, if_pos rfl] at hj
    have hlow := (Nat.le_max_left _ _).trans hj
    have hhigh := (Nat.le_max_right _ _).trans hj
    have hpart : chunk.length < 4096 := by omega
    rw [iterBuf_behind hpart (by omega)]
    rw [decide_eq_true hpart] at hballoc
    rw [h.layout.data_of_ffsBalloc hballoc]
    exact h.layout.raw_eq_zero hlow

/-- A truncation writes a block only if that has no entry, or with the bytes it has. -/
theorem wrote_of_trunc (h : Consistent sha1 S s) {length : ℕ} {env : Env} {s₁ : Fs ι} {bp : Buf}
    (hlbn : lbn.val = truncLbn length)
    (hguard : (wholeBlocks ι sha1 S).trunc s f length env)
    (hballoc : ffsBalloc s f lbn ((length - 1) % 4096 + 1) true env = some (.ok (s₁, bp))) :
    Wrote f lbn (truncBuf s f length bp).data s (s₁.bwrite f lbn (truncBuf s f length bp)) ∧
      Stored S (s₁.bwrite f lbn (truncBuf s f length bp)) := by
  have hok : findBlock bp.blkno s₁.table = none ∨
      (truncBuf s f length bp).data = s₁.disk bp.blkno := by
    simpa using hguard lbn s₁ bp hlbn hballoc
  have hstored : Stored S s₁ := by
    apply h.stored.of_table (Frame.ffsBalloc hballoc).disk
    rcases ffsBalloc_state hballoc with ⟨-, rfl⟩ | ⟨-, newb, -, rfl⟩ <;>
      exact fun p e he => ⟨p, e, he, rfl⟩
  refine ⟨Wrote.of_ffsBalloc_bwrite h.counted hballoc (blkno_truncBuf length bp) ?_,
    hstored.bwrite (Or.inr (by rw [blkno_truncBuf]; exact hok))⟩
  refine hok.imp (fun hnone q e hfind => ?_) id
  rw [hnone] at hfind
  cases hfind

/-- The bytes a truncation writes: zeros behind the new end. -/
theorem truncBuf_apply (h : Consistent sha1 S s) {length : ℕ} {env : Env} {s₁ : Fs ι} {bp : Buf}
    (hballoc : ffsBalloc s f lbn ((length - 1) % 4096 + 1) true env = some (.ok (s₁, bp)))
    (j : Fin 4096) : (truncBuf s f length bp).data j =
      if length < s.size f ∧ length % 4096 ≠ 0 ∧ length % 4096 ≤ j.val then 0
      else s.raw f lbn j := by
  have hdata := h.layout.data_of_ffsBalloc hballoc
  by_cases hzero : length < s.size f ∧ length % 4096 ≠ 0
  · rw [truncBuf, if_pos hzero, ← hdata]
    by_cases hj : length % 4096 ≤ j.val
    · rw [if_pos ⟨hzero.1, hzero.2, hj⟩]
      exact if_pos hj
    · rw [if_neg (fun hc => hj hc.2.2)]
      exact if_neg hj
  · rw [truncBuf, if_neg hzero, if_neg (fun hc => hzero ⟨hc.1, hc.2.1⟩), hdata]

/-- A truncation keeps the layout and the stored blocks. -/
theorem layout_of_trunc (h : Consistent sha1 S s) {length : ℕ} {env : Env} {err : Option Errno}
    (hguard : (wholeBlocks ι sha1 S).trunc s f length env)
    (hrun : ffsTruncate s f length env = some (t, err)) : Stored S t ∧ Layout t := by
  rcases ffsTruncate_cases h.sound.boot hrun with rfl | ⟨hlt, hmod, rfl⟩ |
    ⟨lbn, s₁, bp, hne, hlbn, hballoc, rfl⟩
  · exact ⟨h.stored, h.layout⟩
  · -- no block has both bytes before and behind the new end
    refine ⟨h.stored.truncTail f length, h.layout.truncTail fun {i j} hi hj => ?_⟩
    omega
  · obtain ⟨hwrote, hstored⟩ := h.wrote_of_trunc hlbn hguard hballoc
    have hbytes := h.truncBuf_apply hballoc
    have hsize := size_of_ffsBalloc hballoc
    split
    · next hlt =>
      refine ⟨hstored, (hwrote.congr_right (u := (s₁.setSize f length).bwrite f lbn _) ?_ rfl
        rfl).layout h.layout (fun {g} => ?_) (fun j hj => ?_)⟩
      · funext g i
        simp
      · rw [Fs.size_bwrite, Fs.size_setSize, hsize]
        split
        · next hg =>
          rw [hg]
          exact hlt.le
        · exact le_rfl
      · rw [Fs.size_bwrite, Fs.size_setSize_self] at hj
        rw [hbytes, if_neg (fun hc => absurd hc.1 (by omega))]
        exact h.layout.raw_eq_zero (hlt.le.trans hj)
    · next hge =>
      have hlt : length < s.size f := by omega
      have hlayout := hwrote.layout h.layout (fun {g} => by rw [Fs.size_bwrite, hsize])
        (fun j hj => by
          rw [Fs.size_bwrite, hsize] at hj
          rw [hbytes, h.layout.raw_eq_zero hj, ite_self])
      refine ⟨hstored.truncTail f length, hlayout.truncTail fun {i j} hi hj => ?_⟩
      -- the block with the new last byte was zeroed behind it
      have hj4 := j.isLt
      have hilbn : i = lbn := by
        apply Fin.ext
        rw [hlbn, truncLbn]
        omega
      rw [hwrote.raw, if_pos ⟨rfl, hilbn⟩, hbytes, if_pos ⟨hlt, by omega, by omega⟩]

/-- What is known about the states survives the guarded steps. -/
theorem preserved (hS : Set.InjOn sha1 S) :
    Preserved sha1 (wholeBlocks ι sha1 S) f (Consistent sha1 S) where
  iter := by
    intro s t lbn blkoffset chunk env err n hchunk hlen hs hguard hrun
    have hcount := (counted_preserved sha1 S).iter hchunk hlen hs.counted hguard hrun
    have hsound := sound_preserved.iter hchunk hlen hs.sound hguard hrun
    rcases ffsWriteIter_cases hchunk hlen hrun with ⟨rfl, -⟩ |
      ⟨s₁, bp, t', hballoc, hdedup, rfl, -, -⟩
    · exact hs
    · exact ⟨hcount, hsound, (hs.wrote_of_iter hS hguard hballoc hdedup).2,
        hs.layout_of_iter hS hlen hguard hballoc hdedup⟩
  trunc := by
    intro s t length env err hs hguard hrun
    obtain ⟨hstored, hlayout⟩ := hs.layout_of_trunc hguard hrun
    exact ⟨(counted_preserved sha1 S).trunc hs.counted hguard hrun,
      sound_preserved.trunc hs.sound hguard hrun, hstored, hlayout⟩
  evict hs := ⟨(counted_preserved sha1 S).evict hs.counted,
    (sound_preserved (S := S)).evict hs.sound, hs.stored, hs.layout.dropBuf _ _⟩

/-- A successful iteration replaces the bytes of the chunk. -/
theorem byteAt_of_iter (hS : Set.InjOn sha1 S) (h : Consistent sha1 S s) {blkoffset n : ℕ}
    {chunk : List UInt8} {env : Env} (hchunk : chunk ≠ []) (hlen : blkoffset + chunk.length ≤ 4096)
    (hguard : (wholeBlocks ι sha1 S).iter s f lbn blkoffset chunk env)
    (hrun : ffsWriteIter sha1 s f lbn blkoffset chunk env = some (t, none, n)) :
    t.byteAt f = put (s.byteAt f) (lbn.val * 4096 + blkoffset) chunk := by
  have ht := (preserved (f := f) hS).iter hchunk hlen h hguard hrun
  rcases ffsWriteIter_cases hchunk hlen hrun with ⟨-, herr⟩ |
    ⟨s₁, bp, t', hballoc, hdedup, rfl, herr, -⟩
  · exact absurd rfl herr
  · obtain ⟨hwrote, -⟩ := h.wrote_of_iter hS hguard hballoc hdedup
    have hdata := iterBuf_of_ok herr.symm
    have hlbn := lbn.isLt
    funext o
    have hmod : o % 4096 < 4096 := Nat.mod_lt _ (by decide)
    rw [ht.layout.byteAt_eq]
    by_cases hmem : lbn.val * 4096 + blkoffset ≤ o ∧
        o < lbn.val * 4096 + blkoffset + chunk.length
    · have hdiv : o / 4096 = lbn.val := by omega
      have hsub : o - (lbn.val * 4096 + blkoffset) = o % 4096 - blkoffset := by omega
      rw [dif_pos (by omega), hwrote.raw, if_pos ⟨rfl, Fin.ext hdiv⟩, hdata,
        copyIn_of_mem (by simp only; omega) (by simp only; omega), put_of_mem hmem.1 hmem.2]
      simp only [hsub]
    · rw [put_of_not_mem (by omega), h.layout.byteAt_eq]
      split
      · next hdir =>
        rw [hwrote.raw]
        by_cases hdiv : o / 4096 = lbn.val
        · have hpart : chunk.length < 4096 := by omega
          rw [decide_eq_true hpart] at hballoc
          rw [if_pos ⟨rfl, Fin.ext hdiv⟩, hdata, copyIn_of_not_mem (by simp only; omega),
            h.layout.data_of_ffsBalloc hballoc]
          congr 1
          exact Fin.ext hdiv.symm
        · rw [if_neg (fun hc => hdiv (congrArg Fin.val hc.2))]
      · rfl

end Consistent

/-! ## Reading back a write -/

/-- Re-read from disk, file `f` has in `t` the content it has in `s`, zero-extended, with
`data` at offset `offset`. -/
structure Written (s t : Fs ι) (f : ι) (offset : ℕ) (data : List UInt8) : Prop where
  /-- The bytes. -/
  bytes : t.byteAt f = put (s.byteAt f) offset data
  /-- The size. -/
  size : t.size f = if data = [] then s.size f else max (s.size f) (offset + data.length)

omit [Fintype ι] [DecidableEq ι] in
/-- What is written after a first part follows it. -/
theorem Written.append (h : Written s t f offset xs) (hys : ys ≠ [])
    (hbytes : u.byteAt f = put (t.byteAt f) (offset + xs.length) ys)
    (hsize : u.size f = max (t.size f) (offset + xs.length + ys.length)) :
    Written s u f offset (xs ++ ys) where
  bytes := by rw [hbytes, h.bytes, put_put_append]
  size := by
    have hne : xs ++ ys ≠ [] := fun hnil => hys (List.append_eq_nil_iff.mp hnil).2
    rw [hsize, h.size, if_neg hne, List.length_append]
    split
    · next hnil =>
      rw [hnil]
      simp
    · omega

/-- A loop of `ffs_write` without an error writes all of its data. -/
theorem Consistent.written_of_loop (hS : Set.InjOn sha1 S) (h : Consistent sha1 S s)
    {env : ℕ → Env} {offset : ℕ} {data : List UInt8}
    (hguard : (wholeBlocks ι sha1 S).loop sha1 f env data.length s offset data)
    (hrun : ffsWriteLoop sha1 f env data.length s offset data = some (t, none)) :
    Written s t f offset data := by
  -- the data is a part that is written and one that is left
  have hloop := ffsWriteLoop_rule (E := fun _ => True)
    (I := fun off rest u => Consistent sha1 S u ∧ ∃ done, data = done ++ rest ∧
      off = offset + done.length ∧ Written s u f offset done)
    (G := wholeBlocks ι sha1 S) (f := f) ?_ (fun _ _ _ _ _ => trivial) le_rfl hguard
    ⟨h, [], rfl, rfl, ⟨put_nil.symm, rfl⟩⟩ hrun
  · obtain ⟨-, -, done, hdone, -, hwritten⟩ | ⟨herr, -⟩ := hloop
    · rw [List.append_nil] at hdone
      rw [hdone]
      exact hwritten
    · exact absurd rfl herr
  · rintro u t off rest hlbn hrest ⟨hu, done, hdata, rfl, hwritten⟩ chunk hiter hstep
    obtain ⟨hchunk, hfit⟩ := chunk_fits hrest (offset + done.length)
    have hoff : (offset + done.length) / 4096 * 4096 + (offset + done.length) % 4096 =
        offset + done.length := Nat.div_add_mod' _ _
    have hbytes := hu.byteAt_of_iter hS hchunk hfit hiter hstep
    have hsize := size_of_iter hchunk hfit hstep
    simp only [hoff] at hbytes hsize
    refine ⟨(Consistent.preserved (f := f) hS).iter hchunk hfit hu hiter hstep, done ++ chunk,
      ?_, ?_, hwritten.append hchunk hbytes hsize⟩
    · have hsplit : chunk ++ rest.drop chunk.length = rest :=
        List.prefix_iff_eq_append.mp (List.take_prefix _ _)
      rw [List.append_assoc, hsplit, hdata]
    · rw [List.length_append, Nat.add_assoc]

end EmbeddedOs.Ddfs
