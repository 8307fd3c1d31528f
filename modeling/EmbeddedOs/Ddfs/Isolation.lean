import EmbeddedOs.Ddfs.RefCounts

/-!
# Isolation

What a file reads through its block pointers is changed by writes and truncations of other
files only if these overwrite a shared block in place, or were handed a block that is still
in use. The second cannot happen along the runs that keep the table in order; the first is
what a write of new bytes to a deduplicated block does.
-/

namespace EmbeddedOs.Ddfs

open Lib Lib.SlotTable

variable {ι : Type} {s t u : Fs ι} {f : ι} {lbn : Fin 12}

/-- The byte of a file at offset `o`, read from disk through its block pointers: 0 in a
hole and behind the end. -/
def Fs.byteAt (s : Fs ι) (f : ι) (o : ℕ) : UInt8 :=
  if o < s.size f then
    if h : o / 4096 < 12 then
      if s.ptr f ⟨o / 4096, h⟩ = 0 then 0
      else s.disk (s.ptr f ⟨o / 4096, h⟩) ⟨o % 4096, Nat.mod_lt _ (by decide)⟩
    else 0
  else 0

/-- What `s` and `t` have in common after an assignment to file `f` that writes no block:
the sizes and pointers of the other files, and the disk. -/
structure Frame (f : ι) (s t : Fs ι) : Prop where
  /-- The sizes of the other files. -/
  size : ∀ g, g ≠ f → t.size g = s.size g
  /-- The pointers of the other files. -/
  ptr : ∀ g, g ≠ f → ∀ i, t.ptr g i = s.ptr g i
  /-- The disk. -/
  disk : t.disk = s.disk

namespace Frame

theorem refl (f : ι) (s : Fs ι) : Frame f s s := ⟨fun _ _ => rfl, fun _ _ _ => rfl, rfl⟩

theorem trans (h : Frame f s t) (h' : Frame f t u) : Frame f s u :=
  ⟨fun g hg => (h'.size g hg).trans (h.size g hg),
    fun g hg i => (h'.ptr g hg i).trans (h.ptr g hg i), h'.disk.trans h.disk⟩

/-- An assignment that sets neither a size nor a pointer nor a block. -/
theorem of_eq (hsize : t.size = s.size) (hptr : t.ptr = s.ptr) (hdisk : t.disk = s.disk) :
    Frame f s t :=
  ⟨fun _ _ => by rw [hsize], fun _ _ _ => by rw [hptr], hdisk⟩

theorem ffsBlkfree (b : ℤ) : Frame f s (Ddfs.ffsBlkfree s b) := of_eq (by simp) (by simp) (by simp)

variable [DecidableEq ι]

theorem setPtr (i : Fin 12) (b : ℤ) : Frame f s (s.setPtr f i b) :=
  ⟨fun g _ => by simp, fun g hg j => by simp [Fs.ptr_setPtr, hg], rfl⟩

theorem setSize (n : ℕ) : Frame f s (s.setSize f n) :=
  ⟨fun g hg => by simp [Fs.size_setSize, hg], fun g _ j => by simp, rfl⟩

theorem grow (n : ℕ) : Frame f s (s.grow f n) :=
  ⟨fun g hg => by simp [Fs.size_grow, hg], fun g _ j => by simp, by simp⟩

theorem ffsBalloc {env : Env} {size : ℕ} {clrbuf : Bool} {bp : Buf}
    (h : Ddfs.ffsBalloc s f lbn size clrbuf env = some (.ok (t, bp))) : Frame f s t := by
  rcases ffsBalloc_state h with ⟨-, rfl⟩ | ⟨-, newb, -, rfl⟩
  · exact refl f t
  · exact (of_eq rfl rfl rfl : Frame f s (s.take newb)).trans (setPtr lbn newb)

theorem dedupBlock {hash : Key} {entry : DdfsDedup}
    (h : Ddfs.dedupBlock s f lbn hash entry = some t) : Frame f s t := by
  rcases dedupBlock_cases h with ⟨p, old, -, -, rfl⟩ | ⟨p, e, -, -, rfl⟩ | ⟨p, e, -, -, rfl⟩
  · exact of_eq rfl rfl rfl
  · exact of_eq rfl rfl rfl
  · have htable : Frame f s (s.setTable (setSlot s.table p
        { e with refCount := e.refCount + 1 })) := of_eq rfl rfl rfl
    exact (htable.trans (setPtr lbn e.blockptr)).trans (ffsBlkfree _)

theorem truncTail (s : Fs ι) (f : ι) (length : ℕ) : Frame f s (Ddfs.truncTail s f length) :=
  truncTail_rule (refl f s) (fun h => h.trans (of_eq rfl rfl rfl))
    (fun h _ => (h.trans (setPtr _ 0)).trans (ffsBlkfree _)) (fun h => h.trans (setSize length))

end Frame

/-- The other files than `f` read in `t` what they read in `s`. -/
structure Untouched (f : ι) (s t : Fs ι) : Prop where
  /-- Their sizes are the same. -/
  size : ∀ g, g ≠ f → t.size g = s.size g
  /-- Their pointers are the same. -/
  ptr : ∀ g, g ≠ f → ∀ i, t.ptr g i = s.ptr g i
  /-- Their blocks are the same. -/
  disk : ∀ g, g ≠ f → ∀ i, s.ptr g i ≠ 0 → t.disk (s.ptr g i) = s.disk (s.ptr g i)

namespace Untouched

theorem refl (f : ι) (s : Fs ι) : Untouched f s s :=
  ⟨fun _ _ => rfl, fun _ _ _ => rfl, fun _ _ _ _ => rfl⟩

theorem frame (h : Untouched f s t) (h' : Frame f t u) : Untouched f s u :=
  ⟨fun g hg => (h'.size g hg).trans (h.size g hg),
    fun g hg i => (h'.ptr g hg i).trans (h.ptr g hg i),
    fun g hg i hi => by rw [h'.disk]; exact h.disk g hg i hi⟩

/-- Every byte of another file is the same. -/
theorem byteAt (h : Untouched f s t) {g : ι} (hg : g ≠ f) (o : ℕ) :
    t.byteAt g o = s.byteAt g o := by
  simp only [Fs.byteAt, h.size g hg, h.ptr g hg]
  split
  · split
    · split
      · rfl
      · next hptr => rw [h.disk g hg _ hptr]
    · rfl
  · rfl

/-- A block may be written if no other file has it, or with the bytes it has. -/
theorem bwrite [DecidableEq ι] (h : Untouched f s t) {bp : Buf}
    (hw : (∀ g, g ≠ f → ∀ i, t.ptr g i ≠ bp.blkno) ∨ bp.data = t.disk bp.blkno) :
    Untouched f s (t.bwrite f lbn bp) := by
  refine ⟨h.size, h.ptr, fun g hg i hi => ?_⟩
  rw [Fs.disk_bwrite]
  by_cases hb : s.ptr g i = bp.blkno
  · rw [if_pos hb]
    rcases hw with hprivate | hsame
    · exact absurd ((h.ptr g hg i).trans hb) (hprivate g hg i)
    · rw [hsame, ← hb]
      exact h.disk g hg i hi
  · rw [if_neg hb]
    exact h.disk g hg i hi

end Untouched

/-! ## Guarded runs -/

/-- A block that file `f` has already is overwritten only if no other file has it, or with
the bytes it has. -/
def InPlaceOk (s : Fs ι) (f : ι) (bp : Buf) : Prop :=
  (∀ g, g ≠ f → ∀ i, s.ptr g i ≠ bp.blkno) ∨ bp.data = s.disk bp.blkno

variable [DecidableEq ι]

/-- An iteration that keeps the table in order and changes no shared block in place. -/
structure IsolatedIter (sha1 : Block → Key) (s s₁ : Fs ι) (f : ι) (lbn : Fin 12) (blkoffset : ℕ)
    (chunk : List UInt8) (env : Env) (bp : Buf) : Prop where
  /-- The deduplication step keeps its promises. -/
  dedup : DedupOk s₁ (s₁.ptr f lbn) (iterKey sha1 bp blkoffset chunk env)
  /-- The block the file had before may be overwritten. -/
  inPlace : s.ptr f lbn ≠ 0 → InPlaceOk s f (iterBuf bp blkoffset chunk env)

/-- The guard for isolation: the table is kept in order, and no block shared with another
file is changed in place. -/
def noSharedWrite (ι : Type) [DecidableEq ι] (sha1 : Block → Key) : Guard ι where
  iter := IterWrite (IsolatedIter sha1)
  trunc := TruncWrite fun s _ f lbn bp => s.ptr f lbn ≠ 0 → InPlaceOk s f bp

variable [Fintype ι] {sha1 : Block → Key}

/-- Once `ffs_balloc` has the block, it may be written: a block that was free has no other
pointer. -/
theorem inPlaceOk_of_ffsBalloc {env : Env} {size : ℕ} {clrbuf : Bool} {bp bp' : Buf}
    (h : Counted (· ≤ ·) s) (hballoc : ffsBalloc s f lbn size clrbuf env = some (.ok (t, bp)))
    (hblkno : bp'.blkno = bp.blkno) (hok : s.ptr f lbn ≠ 0 → InPlaceOk s f bp') :
    InPlaceOk t f bp' := by
  have hframe : Frame f s t := Frame.ffsBalloc hballoc
  have hnum := ffsBalloc_blkno hballoc
  rcases ffsBalloc_state hballoc with ⟨hptr, rfl⟩ | ⟨-, newb, hfree, rfl⟩
  · exact hok hptr
  · left
    intro g hg i
    obtain ⟨m, -, hacc⟩ := h.accounts
    rw [hframe.ptr g hg i, hblkno, hnum, Fs.ptr_setPtr_self]
    exact Lib.refs_eq_zero.mp (hacc.free_refs hfree) (g, i)

omit [Fintype ι] in
/-- A write that may overwrite its block leaves what other files read. -/
theorem Untouched.bwrite_of_inPlaceOk {s₀ : Fs ι} {bp : Buf} (h : Untouched f s₀ s)
    (hok : InPlaceOk s f bp) (hframe : Frame f s t) : Untouched f s₀ (t.bwrite f lbn bp) := by
  apply (h.frame hframe).bwrite
  rw [hframe.disk]
  exact hok.imp (fun hp g hg i => by rw [hframe.ptr g hg i]; exact hp g hg i) id

variable (sha1) in
/-- The accounting survives the guarded steps. -/
theorem counted_preserved : Preserved sha1 (noSharedWrite ι sha1) f (Counted (· ≤ ·)) :=
  Counted.noSecondEntry.mono
    (fun _ _ _ _ _ hguard s₁ bp hballoc => (hguard s₁ bp hballoc).dedup) (fun _ _ _ _ => trivial)

/-- The accounting and what other files read survive the guarded steps on a file. -/
theorem untouched_preserved (s₀ : Fs ι) : Preserved sha1 (noSharedWrite ι sha1) f
    (fun s => Counted (· ≤ ·) s ∧ Untouched f s₀ s) where
  iter := by
    rintro s t lbn blkoffset chunk env err n hchunk hlen ⟨hcount, hother⟩ hguard hrun
    refine ⟨(counted_preserved sha1).iter hchunk hlen hcount hguard hrun, ?_⟩
    rcases ffsWriteIter_cases hchunk hlen hrun with ⟨rfl, -⟩ |
      ⟨s₁, bp, t', hballoc, hdedup, rfl, -, -⟩
    · exact hother
    · have hok := inPlaceOk_of_ffsBalloc hcount hballoc (blkno_iterBuf bp blkoffset chunk env)
        (hguard s₁ bp hballoc).inPlace
      exact (hother.frame (Frame.ffsBalloc hballoc)).bwrite_of_inPlaceOk hok
        ((Frame.grow _).trans (Frame.dedupBlock hdedup))
  trunc := by
    rintro s t length env err ⟨hcount, hother⟩ hguard hrun
    refine ⟨(counted_preserved sha1).trunc hcount hguard hrun, ?_⟩
    have h0 : s.freeMap 0 = false := by
      obtain ⟨m, -, hacc⟩ := hcount.accounts
      simpa using hacc.hole_free
    rcases ffsTruncate_cases h0 hrun with rfl | ⟨-, -, rfl⟩ |
      ⟨lbn, s₁, bp, -, hlbn, hballoc, rfl⟩
    · exact hother
    · exact hother.frame (Frame.truncTail s f length)
    · have hok := inPlaceOk_of_ffsBalloc hcount hballoc (blkno_truncBuf length bp)
        (hguard lbn s₁ bp hlbn hballoc)
      have hs₁ := hother.frame (Frame.ffsBalloc hballoc)
      split
      · exact hs₁.bwrite_of_inPlaceOk hok (Frame.setSize length)
      · exact (hs₁.bwrite_of_inPlaceOk hok (Frame.refl f s₁)).frame (Frame.truncTail _ f length)
  evict h := ⟨(counted_preserved sha1).evict h.1, h.2.frame (Frame.of_eq rfl rfl rfl)⟩

/-- Along the guarded runs a step on a file changes no byte that another file reads through
its block pointers. -/
theorem other_files_untouched (sha1 : Block → Key)
    (h : (noSharedWrite ι sha1).Reachable sha1 s) {call : FsCall ι} {err : Option Errno}
    (hguard : (noSharedWrite ι sha1).call sha1 s call) (hrun : exec sha1 s call = some (t, err))
    {g : ι} (hg : g ≠ call.file) : ∀ o, t.byteAt g o = s.byteAt g o := by
  have hcount : Counted (· ≤ ·) s :=
    h.invariant (fun s hs => counted_of_fresh hs) (fun f => counted_preserved sha1)
  have hend := (untouched_preserved s).exec ⟨hcount, .refl _ s⟩ hguard hrun
  exact hend.2.byteAt hg

/-- Writing a byte to one file leaves the byte of the other. -/
theorem other_files_untouched_two :
    (twoFiles prefixKey).byteAt false 0 = (oneFile prefixKey false 1).byteAt false 0 := by
  have hptr : (oneFile prefixKey false 1).ptr true 0 = 0 := by simp [ptr_oneFile]
  have hbuf : (oneFile prefixKey false 1).bufs true 0 = none := bufs_oneFile_of_ne (by decide)
  have hfree : (oneFile prefixKey false 1).freeMap 2 = true := by simp [freeMap_oneFile]
  have hreach : (noSharedWrite Bool prefixKey).Reachable prefixKey (oneFile prefixKey false 1) := by
    apply oneFile_reachable
    apply iterWrite_hole (P := IsolatedIter prefixKey) rfl rfl rfl
    refine ⟨⟨fun _ => ?_, fun p e hkey => ?_⟩, fun h => absurd rfl h⟩
    · exact findBlock_eq_none.mpr fun p e he => absurd he not_inUse_mkfsTable
    · exact absurd (inUse_of_findKey hkey).1 not_inUse_mkfsTable
  have hguard : (noSharedWrite Bool prefixKey).call prefixKey (oneFile prefixKey false 1)
      (writeByte true 2 2) := by
    apply Guard.call_writeByte
    apply iterWrite_hole (P := IsolatedIter prefixKey) hptr hbuf hfree
    refine ⟨⟨fun _ => ?_, fun p e hkey => ?_⟩, fun h => absurd hptr h⟩
    · rw [Fs.ptr_setPtr_self, findBlock_eq_none]
      intro p e he
      rw [(inUse_oneFile (f := false).mp he).2]
      decide
    · have he : InUse (oneFile prefixKey false 1).table p e := (inUse_of_findKey hkey).1
      rw [(inUse_oneFile.mp he).2]
      decide
  have hrun : exec prefixKey (oneFile prefixKey false 1) (writeByte true 2 2) =
      some (twoFiles prefixKey, none) := by
    apply exec_writeByte_hole hptr hbuf hfree
    rw [dedupBlock_new (p := (0, 1))]
    · simp [newEntry]
    · rw [Fs.table_grow]
      exact findKey_oneFile_ne (f := false) (n := 1) (by decide)
    · rw [Fs.table_grow]
      exact findFree_oneFile (f := false)
  exact other_files_untouched prefixKey hreach hguard hrun (by decide) 0

/-- The one entry in use, which counts both files. -/
theorem inUse_sharedTable {sha1 : Block → Key} {p : ℕ × ℕ} {e : DdfsDedup}
    (h : InUse (setSlot (oneFile sha1 false 1).table (0, 0)
      { newEntry (sha1 (oneByte 1)) 1 with refCount := 1 + 1 }) p e) :
    p = (0, 0) ∧ e = { newEntry (sha1 (oneByte 1)) 1 with refCount := 1 + 1 } := by
  have hslot : InUse (oneFile sha1 false 1).table (0, 0) (newEntry (sha1 (oneByte 1)) 1) :=
    inUse_oneFile.mpr ⟨rfl, rfl⟩
  rcases (inUse_setSlot hslot.1).mp h with ⟨hp, he, -⟩ | ⟨hp, he⟩
  · exact ⟨hp, he⟩
  · exact absurd (inUse_oneFile.mp he).1 hp

theorem exec_sharedFile {sha1 : Block → Key} :
    exec sha1 (oneFile sha1 false 1) (writeByte true 1 2) = some (sharedFile sha1, none) := by
  have hptr : (oneFile sha1 false 1).ptr true 0 = 0 := by simp [ptr_oneFile]
  have hbuf : (oneFile sha1 false 1).bufs true 0 = none := bufs_oneFile_of_ne (by decide)
  have hfree : (oneFile sha1 false 1).freeMap 2 = true := by simp [freeMap_oneFile]
  apply exec_writeByte_hole hptr hbuf hfree
  rw [dedupBlock_other (p := (0, 0)) (e := newEntry (sha1 (oneByte 1)) 1), Fs.ptr_grow,
    Fs.ptr_setPtr_self, ffsBlkfree_missing]
  · simp [newEntry]
  · rw [findBlock_eq_none]
    intro p e he
    rw [(inUse_sharedTable he).2]
    show (1 : ℤ) ≠ 2
    decide
  · rw [Fs.table_grow]
    exact findKey_oneFile (f := false)
  · rw [Fs.ptr_grow, Fs.ptr_setPtr_self]
    show (1 : ℤ) ≠ 2
    decide

/-- The same byte written to two files and another one to the second: the first file reads
the byte of the second. -/
theorem other_files_untouched_fails : ¬∃ sha1 : Block → Key, sha1 (oneByte 1) ≠ sha1 (oneByte 2) ∧
    ∀ s t, execAll sha1 (smallFs Bool) [writeByte false 1 1, writeByte true 1 2] = some s →
      exec sha1 s (writeByte true 2 2) = some (t, none) →
        ∀ o, t.byteAt false o = s.byteAt false o := by
  rintro ⟨sha1, hne, hall⟩
  rw [execAll_cons exec_oneFile, execAll_cons exec_sharedFile] at hall
  have hptr : ∀ g, (sharedFile sha1).ptr g 0 = 1 := by
    intro g
    cases g <;> simp [sharedFile, Fs.ptr_setPtr, ptr_oneFile]
  have hsize : ∀ g, (sharedFile sha1).size g = 1 := by
    intro g
    cases g
    · simp [sharedFile, Fs.size_grow]
    · simp [sharedFile, Fs.size_grow, size_oneFile_of_ne]
  have hkey : findKey (sha1 (oneByte 2)) ((sharedFile sha1).grow true 1).table = none := by
    rw [Fs.table_grow, findKey_eq_none]
    intro p e he
    rw [(inUse_sharedTable he).2]
    exact hne
  have hspot : findFree ((sharedFile sha1).grow true 1).table = some ((0, 1), freeEntry) := by
    simp only [Fs.table_grow, sharedFile, Fs.table_bwrite, Fs.table_free, Fs.table_setPtr,
      Fs.table_setTable, table_oneFile]
    with_unfolding_all rfl
  have hold : (sharedFile sha1).disk 1 = oneByte 1 := by
    simp [sharedFile, Fs.disk_bwrite]
  have hover := exec_writeByte_over (s := sharedFile sha1) (f := true) (n := 1)
    (m := 2) (b := 2) (by simp [hptr]) (by simp [hsize]) (by simp [sharedFile, Fs.bufs_bwrite])
    (dedupBlock_new hkey hspot)
  have hbyte := hall _ _ rfl hover 0
  simp [Fs.byteAt, hsize, hptr, hold, Fs.size_grow, Fs.disk_bwrite] at hbyte
  exact absurd hbyte (by decide)

end EmbeddedOs.Ddfs
