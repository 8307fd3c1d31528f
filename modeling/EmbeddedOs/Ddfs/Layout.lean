import EmbeddedOs.Ddfs.Isolation
import Mathlib.Data.Set.Basic

/-!
# Files on the disk

What the blocks of the files hold, and how a write of one block changes that. Buffers agree
with the disk, and a file has zeros behind its end in its last block, which is what an
extension of the file later shows. A write of a block is summed up by `Wrote`, whichever
way the code took: in place, to a fresh block, or by a switch to a block with these bytes.
-/

namespace EmbeddedOs.Ddfs

open Lib Lib.SlotTable

variable {ι : Type} {s t u : Fs ι} {f : ι} {lbn : Fin 12} {w : Block}

/-- The content of block `i` of a file: zeros for a hole. -/
def Fs.raw (s : Fs ι) (f : ι) (i : Fin 12) : Block :=
  if s.ptr f i = 0 then fun _ => 0 else s.disk (s.ptr f i)

/-- How the files lie on the disk. -/
structure Layout (s : Fs ι) : Prop where
  /-- A buffer is that of a block of the file, and agrees with the disk. -/
  coherent : ∀ {g i d}, s.bufs g i = some d → s.ptr g i ≠ 0 ∧ s.disk (s.ptr g i) = d
  /-- Behind the end of a file its last block has zeros. -/
  tail : ∀ {g i} {j : Fin 4096}, s.ptr g i ≠ 0 → s.size g ≤ i.val * 4096 + j.val →
    s.disk (s.ptr g i) j = 0

/-- Behind the end of a file there are zeros only. -/
theorem Layout.raw_eq_zero (h : Layout s) {g : ι} {i : Fin 12} {j : Fin 4096}
    (hj : s.size g ≤ i.val * 4096 + j.val) : s.raw g i j = 0 := by
  simp only [Fs.raw]
  split
  · rfl
  · next hptr => exact h.tail hptr hj

/-- The bytes of a file are those of its blocks. -/
theorem Layout.byteAt_eq (h : Layout s) (f : ι) (o : ℕ) : s.byteAt f o =
    if h : o / 4096 < 12 then s.raw f ⟨o / 4096, h⟩ ⟨o % 4096, Nat.mod_lt _ (by decide)⟩
    else 0 := by
  simp only [Fs.byteAt]
  by_cases hlbn : o / 4096 < 12
  · simp only [dif_pos hlbn]
    split
    · simp only [Fs.raw]
      split <;> rfl
    · exact (h.raw_eq_zero (by simp only; omega)).symm
  · simp only [dif_neg hlbn, ite_self]

theorem Layout.of_fresh (h : Fresh s) : Layout s where
  coherent {g i d} hd := by
    rw [h.bufs g i] at hd
    cases hd
  tail {g i j} hptr := absurd (h.ptr g i) hptr

/-- The loss of a buffer loses nothing. -/
theorem Layout.dropBuf [DecidableEq ι] (h : Layout s) (f : ι) (lbn : Fin 12) :
    Layout (s.dropBuf f lbn) where
  coherent {g i d} hd := by
    rw [Fs.bufs_dropBuf] at hd
    split at hd
    · cases hd
    · exact h.coherent hd
  tail hptr hj := h.tail hptr hj

/-- The end of a truncation keeps the layout, if the last block has zeros behind the new
end. -/
theorem Layout.truncTail [DecidableEq ι] (h : Layout s) {length : ℕ}
    (htail : ∀ {i : Fin 12} {j : Fin 4096}, i.val * 4096 < length →
      length ≤ i.val * 4096 + j.val → s.raw f i j = 0) : Layout (truncTail s f length) where
  coherent {g i d} hd := by
    rw [bufs_truncTail] at hd
    rw [ptr_truncTail, disk_truncTail]
    split at hd
    · cases hd
    · next hg =>
      rw [if_neg hg]
      exact h.coherent hd
  tail {g i j} hptr hj := by
    rw [ptr_truncTail] at hptr
    rw [size_truncTail] at hj
    rw [ptr_truncTail, disk_truncTail]
    by_cases hg : g = f ∧ (length + 4095) / 4096 ≤ i.val
    · rw [if_pos hg] at hptr
      exact absurd rfl hptr
    · rw [if_neg hg] at hptr ⊢
      by_cases hgf : g = f
      · have hi : ¬(length + 4095) / 4096 ≤ i.val := fun hi => hg ⟨hgf, hi⟩
        rw [if_pos hgf] at hj
        have hlast := htail (i := i) (by omega) hj
        rw [Fs.raw, ← hgf, if_neg hptr] at hlast
        exact hlast
      · rw [if_neg hgf] at hj
        exact h.tail hptr hj

/-- From `s` to `t` block `lbn` of file `f` got the bytes `w`, and no other block of a file
changed. -/
structure Wrote (f : ι) (lbn : Fin 12) (w : Block) (s t : Fs ι) : Prop where
  /-- The file has the block. -/
  ptr_ne : t.ptr f lbn ≠ 0
  /-- The block has the bytes. -/
  data : t.disk (t.ptr f lbn) = w
  /-- The buffer of the block has the bytes. -/
  buf : t.bufs f lbn = some w
  /-- The other buffers are unchanged. -/
  bufs : ∀ {g i}, ¬(g = f ∧ i = lbn) → t.bufs g i = s.bufs g i
  /-- The other pointers are unchanged. -/
  ptr : ∀ {g i}, ¬(g = f ∧ i = lbn) → t.ptr g i = s.ptr g i
  /-- The other blocks are unchanged. -/
  disk : ∀ {g i}, ¬(g = f ∧ i = lbn) → s.ptr g i ≠ 0 → t.disk (s.ptr g i) = s.disk (s.ptr g i)

namespace Wrote

/-- The blocks of the files after a write. -/
theorem raw [DecidableEq ι] (h : Wrote f lbn w s t) (g : ι) (i : Fin 12) :
    t.raw g i = if g = f ∧ i = lbn then w else s.raw g i := by
  by_cases hg : g = f ∧ i = lbn
  · obtain ⟨rfl, rfl⟩ := hg
    simp [Fs.raw, h.ptr_ne, h.data]
  · simp only [Fs.raw, if_neg hg, h.ptr hg]
    split
    · rfl
    · next hptr => exact h.disk hg hptr

/-- A write keeps the layout, if the file has zeros behind its end. -/
theorem layout (h : Wrote f lbn w s t) (hs : Layout s) (hsize : ∀ {g}, s.size g ≤ t.size g)
    (htail : ∀ j : Fin 4096, t.size f ≤ lbn.val * 4096 + j.val → w j = 0) : Layout t where
  coherent {g i d} hd := by
    by_cases hg : g = f ∧ i = lbn
    · obtain ⟨rfl, rfl⟩ := hg
      rw [h.buf, Option.some.injEq] at hd
      exact ⟨h.ptr_ne, h.data.trans hd⟩
    · rw [h.bufs hg] at hd
      obtain ⟨hptr, hdisk⟩ := hs.coherent hd
      rw [h.ptr hg, h.disk hg hptr]
      exact ⟨hptr, hdisk⟩
  tail {g i j} hptr hj := by
    by_cases hg : g = f ∧ i = lbn
    · obtain ⟨rfl, rfl⟩ := hg
      rw [h.data]
      exact htail j hj
    · rw [h.ptr hg] at hptr ⊢
      rw [h.disk hg hptr]
      exact hs.tail hptr (hsize.trans hj)

/-- Only the pointers, the disk and the buffers matter. -/
theorem congr_left (h : Wrote f lbn w s t) (hptr : u.ptr = s.ptr) (hdisk : u.disk = s.disk)
    (hbufs : u.bufs = s.bufs) : Wrote f lbn w u t where
  ptr_ne := h.ptr_ne
  data := h.data
  buf := h.buf
  bufs hg := by rw [hbufs]; exact h.bufs hg
  ptr hg := by rw [hptr]; exact h.ptr hg
  disk hg := by rw [hptr, hdisk]; exact h.disk hg

/-- Only the pointers, the disk and the buffers matter. -/
theorem congr_right (h : Wrote f lbn w s t) (hptr : u.ptr = t.ptr) (hdisk : u.disk = t.disk)
    (hbufs : u.bufs = t.bufs) : Wrote f lbn w s u where
  ptr_ne := by rw [hptr]; exact h.ptr_ne
  data := by rw [hptr, hdisk]; exact h.data
  buf := by rw [hbufs]; exact h.buf
  bufs hg := by rw [hbufs]; exact h.bufs hg
  ptr hg := by rw [hptr]; exact h.ptr hg
  disk hg := by rw [hdisk]; exact h.disk hg

variable [DecidableEq ι]

/-- A block that no other pointer has may be written in place, or with the bytes it has. -/
theorem of_bwrite {bp : Buf} (hptr : s.ptr f lbn ≠ 0) (hblkno : bp.blkno = s.ptr f lbn)
    (hw : (∀ g i, s.ptr g i = s.ptr f lbn → g = f ∧ i = lbn) ∨ bp.data = s.disk (s.ptr f lbn)) :
    Wrote f lbn bp.data s (s.bwrite f lbn bp) where
  ptr_ne := hptr
  data := by simp [Fs.disk_bwrite, hblkno]
  buf := by simp [Fs.bufs_bwrite]
  bufs hg := by simp [Fs.bufs_bwrite, hg]
  ptr _ := rfl
  disk {g i} hg _ := by
    rw [Fs.disk_bwrite, hblkno]
    split
    · next hb =>
      rcases hw with hprivate | hsame
      · exact absurd (hprivate g i hb) hg
      · rw [hsame, hb]
    · rfl

/-- Allocating the block first makes no difference to the other blocks. -/
theorem of_ffsBalloc {env : Env} {size : ℕ} {clrbuf : Bool} {bp : Buf}
    (hballoc : ffsBalloc s f lbn size clrbuf env = some (.ok (t, bp))) (h : Wrote f lbn w t u) :
    Wrote f lbn w s u := by
  rcases ffsBalloc_state hballoc with ⟨-, rfl⟩ | ⟨-, newb, -, rfl⟩
  · exact h
  · have hptr : ∀ {g i}, ¬(g = f ∧ i = lbn) →
        ((s.take newb).setPtr f lbn newb).ptr g i = s.ptr g i := by
      intro g i hg
      rw [Fs.ptr_setPtr, if_neg hg, Fs.ptr_take]
    refine ⟨h.ptr_ne, h.data, h.buf, fun hg => h.bufs hg, fun hg => ?_, fun hg hne => ?_⟩
    · rw [h.ptr hg, hptr hg]
    · have hdisk := h.disk hg
      rw [hptr hg] at hdisk
      exact hdisk hne

/-- The block that `ffs_balloc` found or allocated may be written, if no other pointer has
it or with the bytes it has. -/
theorem of_ffsBalloc_bwrite [Fintype ι] {env : Env} {size : ℕ} {clrbuf : Bool} {bp bp' : Buf}
    (hcount : Counted (· ≤ ·) s)
    (hballoc : ffsBalloc s f lbn size clrbuf env = some (.ok (t, bp)))
    (hblkno : bp'.blkno = bp.blkno)
    (hw : (∀ q e, findBlock bp.blkno t.table = some (q, e) → e.refCount = 1) ∨
      bp'.data = t.disk bp.blkno) : Wrote f lbn bp'.data s (t.bwrite f lbn bp') := by
  have hnum := ffsBalloc_blkno hballoc
  have hptr : t.ptr f lbn ≠ 0 := by
    obtain ⟨m, -, hacc⟩ := hcount.accounts
    exact ffsBalloc_ptr_ne_zero hballoc (by simpa using hacc.hole_free)
  rw [hnum] at hw
  refine of_ffsBalloc hballoc (of_bwrite hptr (hblkno.trans hnum) (hw.imp ?_ id))
  exact fun hone g i hg => (hcount.ffsBalloc hballoc).unshared hptr hone hg rfl

end Wrote

/-! ## What is stored in the blocks with an entry -/

/-- The blocks with an entry hold blocks of `S`. -/
def Stored (S : Set Block) (s : Fs ι) : Prop :=
  ∀ p e, InUse s.table p e → s.disk e.blockptr ∈ S

namespace Stored

variable {S : Set Block}

/-- Entries for the same blocks may replace those there are. -/
theorem of_table (h : Stored S s) (hdisk : t.disk = s.disk)
    (htable : ∀ p e, InUse t.table p e → ∃ q e₀, InUse s.table q e₀ ∧ e₀.blockptr = e.blockptr) :
    Stored S t := by
  intro p e he
  obtain ⟨q, e₀, he₀, hb⟩ := htable p e he
  rw [hdisk, ← hb]
  exact h q e₀ he₀

theorem setCount (h : Stored S s) {p : ℕ × ℕ} {e : DdfsDedup} (he : InUse s.table p e)
    (rc : UInt16) : Stored S (s.setTable (setSlot s.table p { e with refCount := rc })) := by
  refine h.of_table rfl fun q e' he' => ?_
  rcases (inUse_setSlot he.1).mp he' with ⟨rfl, rfl, -⟩ | ⟨-, he'⟩
  · exact ⟨q, e, he, rfl⟩
  · exact ⟨q, e', he', rfl⟩

theorem ffsBlkfree (h : Stored S s) (b : ℤ) : Stored S (Ddfs.ffsBlkfree s b) := by
  rcases ffsBlkfree_cases s b with ⟨p, e, hfind, -, ht⟩ | ⟨p, e, hfind, -, ht⟩ | ⟨-, ht⟩
  · rw [ht]
    exact h.setCount (inUse_of_findBlock hfind).1 _
  · rw [ht]
    refine h.of_table rfl fun q e' he' => ?_
    rcases (inUse_setSlot (inUse_of_findBlock hfind).1.1).mp he' with ⟨-, -, hact⟩ | ⟨-, he'⟩
    · cases hact
    · exact ⟨q, e', he', rfl⟩
  · rw [ht]
    exact h

theorem truncTail [DecidableEq ι] (h : Stored S s) (f : ι) (length : ℕ) :
    Stored S (Ddfs.truncTail s f length) :=
  truncTail_rule h (fun h => h) (fun h _ => Stored.ffsBlkfree (s := Fs.setPtr _ f _ 0) h _)
    (fun h => h)

/-- A block of `S` may be written, and any block with the bytes it has or without an entry. -/
theorem bwrite [DecidableEq ι] (h : Stored S s) {bp : Buf}
    (hw : bp.data ∈ S ∨ findBlock bp.blkno s.table = none ∨ bp.data = s.disk bp.blkno) :
    Stored S (s.bwrite f lbn bp) := by
  intro p e he
  rw [Fs.disk_bwrite]
  split
  · next hb =>
    rcases hw with hmem | hnone | hsame
    · exact hmem
    · exact absurd hb (findBlock_eq_none.mp hnone p e he)
    · rw [hsame, ← hb]
      exact h p e he
  · exact h p e he

end Stored

/-! ## The bytes of the buffer -/

/-- A buffer that is read or cleared has the content of its block. -/
theorem Layout.data_of_ffsBalloc [DecidableEq ι] (h : Layout s) {env : Env} {size : ℕ} {bp : Buf}
    (hballoc : ffsBalloc s f lbn size true env = some (.ok (t, bp))) :
    bp.data = s.raw f lbn := by
  rcases ffsBalloc_cases hballoc with ⟨hptr, -, rfl | ⟨hclr, -⟩⟩ | ⟨hptr, newb, -, -, rfl⟩
  · rw [Fs.raw, if_neg hptr]
    cases hbuf : s.bufs f lbn with
    | none => simp [Fs.breadGb, hbuf]
    | some d => simp [Fs.breadGb, hbuf, (h.coherent hbuf).2]
  · cases hclr
  · have hbuf : s.bufs f lbn = none := by
      cases hbuf : s.bufs f lbn with
      | none => rfl
      | some d => exact absurd hptr (h.coherent hbuf).1
    simp [Fs.raw, hptr, Fs.getblk, hbuf, vfsBioClrbuf]

/-- A byte outside the range keeps its value. -/
theorem copyIn_of_not_mem {d : Block} {off : ℕ} {bytes : List UInt8} {j : Fin 4096}
    (h : j.val < off ∨ off + bytes.length ≤ j.val) : copyIn d off bytes j = d j := by
  simp only [copyIn]
  split
  · have hout : bytes[j.val - off]? = none := List.getElem?_eq_none_iff.mpr (by omega)
    rw [hout]
    rfl
  · rfl

/-- A byte inside the range has the value that was copied. -/
theorem copyIn_of_mem {d : Block} {off : ℕ} {bytes : List UInt8} {j : Fin 4096}
    (hle : off ≤ j.val) (hlt : j.val < off + bytes.length) :
    copyIn d off bytes j = bytes[j.val - off] := by
  have hin : bytes[j.val - off]? = some bytes[j.val - off] := List.getElem?_eq_getElem (by omega)
  rw [copyIn, if_pos hle, hin]
  rfl

/-- An iteration without a fault writes the chunk into the buffer. -/
theorem iterBuf_of_ok {bp : Buf} {blkoffset : ℕ} {chunk : List UInt8} {env : Env}
    (h : (vnIoFaultUiomove bp blkoffset chunk env.fault).2 = none) :
    (iterBuf bp blkoffset chunk env).data = copyIn bp.data blkoffset chunk := by
  have hmove : (vnIoFaultUiomove bp blkoffset chunk env.fault).1.data =
      copyIn bp.data blkoffset chunk := by
    simp only [vnIoFaultUiomove] at h ⊢
    split
    · next n hn =>
      rw [hn] at h
      split
      · next hlt => simp [hlt] at h
      · rfl
    · rfl
  simp only [iterBuf, finishBuf, h, ne_eq, not_true_eq_false, false_and, if_false]
  exact hmove

/-- An iteration on a part of a block leaves the bytes behind the chunk. -/
theorem iterBuf_behind {bp : Buf} {blkoffset : ℕ} {chunk : List UInt8} {env : Env}
    (hlen : chunk.length < 4096) {j : Fin 4096} (hj : blkoffset + chunk.length ≤ j.val) :
    (iterBuf bp blkoffset chunk env).data j = bp.data j := by
  have hcopy : ∀ xs : List UInt8, xs.length ≤ chunk.length →
      copyIn bp.data blkoffset xs j = bp.data j := by
    intro xs hxs
    exact copyIn_of_not_mem (Or.inr (by omega))
  have hmove : (vnIoFaultUiomove bp blkoffset chunk env.fault).1.data j = bp.data j := by
    simp only [vnIoFaultUiomove]
    split
    · split
      · exact hcopy _ (by rw [List.length_take]; exact Nat.min_le_right _ _)
      · exact hcopy _ le_rfl
    · exact hcopy _ le_rfl
  rw [iterBuf, finishBuf, if_neg (fun h => absurd h.2.2 (by omega))]
  exact hmove

end EmbeddedOs.Ddfs
