import EmbeddedOs.Ddfs.Runs

/-!
# Keys and the contents of blocks

A write may replace its block pointer by that of an entry with the same hash because the
key of an entry is the hash of its block. The code keeps this up only as long as a block
with an entry does not change: an overwrite in place never visits the entry the block has,
a write that does not start at a block boundary hashes the wrong bytes, a failed copy is
cleared after it was hashed, and a truncation hashes nothing at all. Along the runs that
avoid this every key is the hash of its block.
-/

namespace EmbeddedOs.Ddfs

open Lib Lib.SlotTable

variable {ι : Type} {sha1 : Block → Key} {s t : Fs ι}

/-- Every entry in use has the hash of its block. -/
structure Sound (sha1 : Block → Key) (s : Fs ι) : Prop where
  /-- The key of an entry is the hash of the bytes of its block. -/
  key : ∀ {p e}, InUse s.table p e → e.key = sha1 (s.disk e.blockptr)
  /-- No key has two entries. -/
  keys : ∀ {p q e e'}, InUse s.table p e → InUse s.table q e' → e.key = e'.key → p = q
  /-- Block 0, which stands for a hole, is not free. -/
  boot : s.freeMap 0 = false

namespace Sound

/-- Only the table, the disk and the free map matter. -/
theorem congr (h : Sound sha1 s) (htable : t.table = s.table) (hdisk : t.disk = s.disk)
    (hfree : t.freeMap = s.freeMap) : Sound sha1 t where
  key he := by rw [hdisk]; rw [htable] at he; exact h.key he
  keys he he' := by rw [htable] at he he'; exact h.keys he he'
  boot := by rw [hfree]; exact h.boot

/-- Two entries for one block are the same. -/
theorem blocks (h : Sound sha1 s) {p q : ℕ × ℕ} {e e' : DdfsDedup} (he : InUse s.table p e)
    (he' : InUse s.table q e') (hb : e.blockptr = e'.blockptr) : p = q :=
  h.keys he he' (by rw [h.key he, h.key he', hb])

theorem of_fresh (h : Fresh s) : Sound sha1 s := by
  obtain ⟨n, hn⟩ := h.table
  have hno : ∀ {p e}, ¬InUse s.table p e := by
    intro p e
    rw [hn]
    exact not_inUse_mkfsTable
  exact ⟨fun he => absurd he hno, fun he => absurd he hno, h.boot⟩

/-- Changing the count of an entry changes no key. -/
theorem setCount (h : Sound sha1 s) {p : ℕ × ℕ} {e : DdfsDedup} (he : InUse s.table p e)
    (rc : UInt16) : Sound sha1 (s.setTable (setSlot s.table p { e with refCount := rc })) := by
  have hold : ∀ {q e'}, InUse (setSlot s.table p { e with refCount := rc }) q e' →
      ∃ e₀, InUse s.table q e₀ ∧ e'.key = e₀.key ∧ e'.blockptr = e₀.blockptr := by
    intro q e' hq
    rcases (inUse_setSlot he.1).mp hq with ⟨rfl, rfl, -⟩ | ⟨-, hq⟩
    · exact ⟨e, he, rfl, rfl⟩
    · exact ⟨e', hq, rfl, rfl⟩
  refine ⟨fun he' => ?_, fun he₁ he₂ hk => ?_, h.boot⟩
  · obtain ⟨e₀, he₀, hkey, hblk⟩ := hold he'
    rw [hkey, hblk]
    exact h.key he₀
  · obtain ⟨e₁, he₁, hk₁, -⟩ := hold he₁
    obtain ⟨e₂, he₂, hk₂, -⟩ := hold he₂
    exact h.keys he₁ he₂ (by rw [← hk₁, ← hk₂, hk])

/-- Removing an entry leaves the others alone. -/
theorem remove (h : Sound sha1 s) {p : ℕ × ℕ} {e : DdfsDedup} (he : InUse s.table p e) :
    Sound sha1 (s.setTable (setSlot s.table p freeEntry)) := by
  have hold : ∀ {q e'}, InUse (setSlot s.table p freeEntry) q e' → InUse s.table q e' := by
    intro q e' hq
    rcases (inUse_setSlot he.1).mp hq with ⟨-, -, hact⟩ | ⟨-, hq⟩
    · cases hact
    · exact hq
  exact ⟨fun he' => h.key (hold he'), fun he₁ he₂ => h.keys (hold he₁) (hold he₂), h.boot⟩

/-- A new entry with the hash of its block may fill a free slot. -/
theorem insert (h : Sound sha1 s) {p : ℕ × ℕ} {old new : DdfsDedup}
    (hp : slot s.table p = some old) (hkey : findKey new.key s.table = none)
    (hnew : new.key = sha1 (s.disk new.blockptr)) :
    Sound sha1 (s.setTable (setSlot s.table p new)) := by
  have hne := findKey_eq_none.mp hkey
  have hcases : ∀ {q e}, InUse (setSlot s.table p new) q e →
      (q = p ∧ e = new) ∨ InUse s.table q e := by
    intro q e hq
    rcases (inUse_setSlot hp).mp hq with ⟨rfl, rfl, -⟩ | ⟨-, hq⟩
    · exact Or.inl ⟨rfl, rfl⟩
    · exact Or.inr hq
  refine ⟨fun he => ?_, fun he₁ he₂ hk => ?_, h.boot⟩
  · rcases hcases he with ⟨-, rfl⟩ | he
    · exact hnew
    · exact h.key he
  · rcases hcases he₁ with ⟨rfl, rfl⟩ | hold₁ <;> rcases hcases he₂ with ⟨rfl, rfl⟩ | hold₂
    · rfl
    · exact absurd hk.symm (hne _ _ hold₂)
    · exact absurd hk (hne _ _ hold₁)
    · exact h.keys hold₁ hold₂ hk

/-- Marking a block free changes no entry. -/
theorem free (h : Sound sha1 s) {b : ℤ} (hb : b ≠ 0) : Sound sha1 (s.free b) where
  key he := h.key he
  keys he he' := h.keys he he'
  boot := by rw [Fs.freeMap_free, if_neg (Ne.symm hb)]; exact h.boot

/-- Giving up a reference to a block keeps the table sound. -/
theorem ffsBlkfree (h : Sound sha1 s) {b : ℤ} (hb : b ≠ 0) : Sound sha1 (Ddfs.ffsBlkfree s b) := by
  rcases ffsBlkfree_cases s b with ⟨p, e, hfind, -, ht⟩ | ⟨p, e, hfind, -, ht⟩ | ⟨hfind, ht⟩
  · rw [ht]
    exact h.setCount (inUse_of_findBlock hfind).1 _
  · obtain ⟨he, rfl⟩ := inUse_of_findBlock hfind
    rw [ht]
    exact (h.remove he).free hb
  · rw [ht]
    exact h.free hb

/-- A block whose entry has one reference has no entry after that is given up. -/
theorem not_inUse_ffsBlkfree (h : Sound sha1 s) {b : ℤ}
    (hone : ∀ q e, InUse s.table q e → e.blockptr = b → e.refCount = 1) :
    ∀ q e, InUse (Ddfs.ffsBlkfree s b).table q e → e.blockptr ≠ b := by
  rcases ffsBlkfree_cases s b with ⟨p, e, hfind, hc, -⟩ | ⟨p, e, hfind, -, ht⟩ | ⟨hfind, ht⟩
  · obtain ⟨he, hblk⟩ := inUse_of_findBlock hfind
    exact absurd (hone p e he hblk) hc
  · obtain ⟨he, rfl⟩ := inUse_of_findBlock hfind
    rw [ht]
    intro q e' he' heq
    rcases (inUse_setSlot he.1).mp he' with ⟨-, -, hact⟩ | ⟨hne, he'⟩
    · cases hact
    · exact hne (h.blocks he' he heq)
  · rw [ht]
    exact findBlock_eq_none.mp hfind

variable [DecidableEq ι] {f : ι} {lbn : Fin 12} {env : Env}

/-- A block may be written with bytes whose hash is the key of its entry, if it has one. -/
theorem bwrite (h : Sound sha1 s) {bp : Buf}
    (hw : ∀ p e, InUse s.table p e → e.blockptr = bp.blkno → e.key = sha1 bp.data) :
    Sound sha1 (s.bwrite f lbn bp) where
  key {p e} he := by
    rw [Fs.disk_bwrite]
    by_cases hb : e.blockptr = bp.blkno
    · rw [if_pos hb]
      exact hw p e he hb
    · rw [if_neg hb]
      exact h.key he
  keys he he' := h.keys he he'
  boot := h.boot

/-- A block may be written with the bytes it has, or if it has no entry. -/
theorem bwrite_of_or (h : Sound sha1 s) {bp : Buf}
    (hw : findBlock bp.blkno s.table = none ∨ bp.data = s.disk bp.blkno) :
    Sound sha1 (s.bwrite f lbn bp) := by
  apply h.bwrite
  intro p e he hb
  rcases hw with hno | hsame
  · exact absurd hb (findBlock_eq_none.mp hno p e he)
  · rw [hsame, ← hb]
    exact h.key he

/-- Allocating a block for a hole leaves the entries alone. -/
theorem ffsBalloc {size : ℕ} {clrbuf : Bool} {bp : Buf} (h : Sound sha1 s)
    (hballoc : Ddfs.ffsBalloc s f lbn size clrbuf env = some (.ok (t, bp))) : Sound sha1 t := by
  rcases ffsBalloc_state hballoc with ⟨-, rfl⟩ | ⟨-, newb, -, rfl⟩
  · exact h
  · refine ⟨fun he => h.key he, fun he he' => h.keys he he', ?_⟩
    rw [Fs.freeMap_setPtr, Fs.freeMap_take]
    split
    · rfl
    · exact h.boot

/-- The end of a truncation keeps the table sound. -/
theorem truncTail (h : Sound sha1 s) (f : ι) (length : ℕ) :
    Sound sha1 (Ddfs.truncTail s f length) :=
  truncTail_rule h (fun h => h.congr rfl rfl rfl)
    (fun h hptr => (h.congr rfl rfl rfl : Sound sha1 (Fs.setPtr _ f _ 0)).ffsBlkfree hptr)
    (fun h => h.congr rfl rfl rfl)

end Sound

/-! ## Guarded runs -/

/-- The bytes that are hashed are those the block will have: the write starts at the block
boundary, and no failed copy of a whole block is cleared from a buffer that was not valid. -/
def HashesBlock (bp : Buf) (blkoffset : ℕ) (chunk : List UInt8) (env : Env) : Prop :=
  blkoffset = 0 ∧
    (chunk.length = 4096 → bp.valid = false → ∀ n, env.fault = some n → 4096 ≤ n)

theorem HashesBlock.iterKey_eq {bp : Buf} {blkoffset : ℕ} {chunk : List UInt8} {env : Env}
    (h : HashesBlock bp blkoffset chunk env) :
    iterKey sha1 bp blkoffset chunk env = sha1 (iterBuf bp blkoffset chunk env).data := by
  obtain ⟨rfl, hclear⟩ := h
  have hvalid : (vnIoFaultUiomove bp 0 chunk env.fault).1.valid = bp.valid := by
    simp only [vnIoFaultUiomove]
    split
    · split <;> rfl
    · rfl
  have herr : (vnIoFaultUiomove bp 0 chunk env.fault).2 ≠ none →
      ∃ n, env.fault = some n ∧ n < chunk.length := by
    simp only [vnIoFaultUiomove]
    split
    · next n hn =>
      split
      · next hlt => exact fun _ => ⟨n, hn, hlt⟩
      · exact fun h => absurd rfl h
    · exact fun h => absurd rfl h
  simp only [iterKey, iterBuf, hashedBytes_zero, finishBuf]
  split
  · next hfail =>
    obtain ⟨n, hn, hlt⟩ := herr hfail.1
    have hval : bp.valid = true := by
      by_contra hno
      have := hclear hfail.2.2 (by simpa using hno) n hn
      omega
    rw [vfsBioClrbuf, if_pos (by rw [hvalid, hval])]
  · rfl

/-- What keeps the key of an entry the hash of its block: a new entry is the first one for
its block and hashes all of it; a block that is written although it has an entry keeps its
bytes, or gets bytes whose hash is looked up and found in the same entry, or loses the entry
with its last reference. -/
structure SoundIter (sha1 : Block → Key) (s : Fs ι) (blk : ℤ) (blkoffset : ℕ)
    (chunk : List UInt8) (env : Env) (bp : Buf) : Prop where
  /-- A new entry is the only one for its block, and has the hash of what is written. -/
  new : findKey (iterKey sha1 bp blkoffset chunk env) s.table = none →
    findBlock blk s.table = none ∧ HashesBlock bp blkoffset chunk env
  /-- The key found is that of what is written, or the block keeps its bytes. -/
  same : ∀ p e, findKey (iterKey sha1 bp blkoffset chunk env) s.table = some (p, e) →
    e.blockptr = blk →
    HashesBlock bp blkoffset chunk env ∨ (iterBuf bp blkoffset chunk env).data = s.disk blk
  /-- The block given up loses its entry, or keeps its bytes. -/
  other : ∀ p e, findKey (iterKey sha1 bp blkoffset chunk env) s.table = some (p, e) →
    e.blockptr ≠ blk →
    (∀ q e', findBlock blk s.table = some (q, e') → e'.refCount = 1) ∨
      (iterBuf bp blkoffset chunk env).data = s.disk blk

variable [DecidableEq ι] {f : ι} {lbn : Fin 12}

/-- The guard for the soundness of the table: `SoundIter` for every iteration; and a
truncation that writes a block with an entry leaves its bytes as they are. -/
def keysSound (ι : Type) [DecidableEq ι] (sha1 : Block → Key) : Guard ι where
  iter := IterWrite fun _ s₁ f lbn => SoundIter sha1 s₁ (s₁.ptr f lbn)
  trunc := TruncWrite fun _ s₁ _ _ bp =>
    findBlock bp.blkno s₁.table = none ∨ bp.data = s₁.disk bp.blkno

/-- An iteration that meets the guard keeps the table sound. -/
theorem Sound.dedup_bwrite (h : Sound sha1 s) {blkoffset : ℕ} {chunk : List UInt8} {env : Env}
    {bp : Buf} (hptr : s.ptr f lbn ≠ 0) (hblkno : bp.blkno = s.ptr f lbn)
    (hok : SoundIter sha1 s (s.ptr f lbn) blkoffset chunk env bp)
    (hdedup : dedupBlock s f lbn (iterKey sha1 bp blkoffset chunk env) env.entry = some t) :
    Sound sha1 (t.bwrite f lbn (iterBuf bp blkoffset chunk env)) := by
  have hblk : (iterBuf bp blkoffset chunk env).blkno = s.ptr f lbn := by
    rw [blkno_iterBuf, hblkno]
  rcases dedupBlock_cases hdedup with ⟨p, old, hkey, hfree, rfl⟩ | ⟨p, e, hkey, hsame, rfl⟩ |
    ⟨p, e, hkey, hother, rfl⟩
  · obtain ⟨hnone, hhash⟩ := hok.new hkey
    have hwrite : Sound sha1 (s.bwrite f lbn (iterBuf bp blkoffset chunk env)) :=
      h.bwrite_of_or (Or.inl (by rw [hblk]; exact hnone))
    refine (hwrite.insert
      (slot_of_findFree hfree).1 hkey ?_).congr rfl rfl rfl
    rw [Fs.disk_bwrite, if_pos hblk.symm]
    exact hhash.iterKey_eq
  · obtain ⟨he, hek⟩ := inUse_of_findKey hkey
    apply (h.setCount he _).bwrite
    intro q e' he' hb
    have hcase : e'.key = e.key ∧ e'.blockptr = s.ptr f lbn := by
      rw [hblk] at hb
      rcases (inUse_setSlot he.1).mp he' with ⟨-, rfl, -⟩ | ⟨hne, he'⟩
      · exact ⟨rfl, hb⟩
      · exact absurd (h.blocks he' he (hb.trans hsame.symm)) hne
    rcases hok.same p e hkey hsame with hhash | hbytes
    · rw [hcase.1, hek]
      exact hhash.iterKey_eq
    · rw [hcase.1, hbytes, ← hsame]
      exact h.key he
  · obtain ⟨he, hek⟩ := inUse_of_findKey hkey
    have hcount : Sound sha1 ((s.setTable (setSlot s.table p
        { e with refCount := e.refCount + 1 })).setPtr f lbn e.blockptr) :=
      (h.setCount he _).congr rfl rfl rfl
    apply (hcount.ffsBlkfree hptr).bwrite_of_or
    rw [hblk]
    rcases hok.other p e hkey hother with hone | hbytes
    · left
      rw [findBlock_eq_none]
      apply hcount.not_inUse_ffsBlkfree
      intro q e' he' hb
      rcases (inUse_setSlot he.1).mp he' with ⟨-, rfl, -⟩ | ⟨-, he'⟩
      · exact absurd hb hother
      · cases hfind : findBlock (s.ptr f lbn) s.table with
        | none => exact absurd hb (findBlock_eq_none.mp hfind q e' he')
        | some pe =>
          obtain ⟨hpe, hpb⟩ := inUse_of_findBlock hfind
          obtain rfl := h.blocks he' hpe (hb.trans hpb.symm)
          rw [Option.some.inj (he'.1.symm.trans hpe.1)]
          exact hone _ _ hfind
    · right
      rw [disk_ffsBlkfree]
      exact hbytes

/-- The soundness of the table survives the guarded steps. -/
theorem Sound.preserved : Preserved sha1 (keysSound ι sha1) f (Sound sha1) where
  iter := by
    intro s t lbn blkoffset chunk env err n hchunk hlen hs hguard hrun
    rcases ffsWriteIter_cases hchunk hlen hrun with ⟨rfl, -⟩ |
      ⟨s₁, bp, t', hballoc, hdedup, rfl, -, -⟩
    · exact hs
    · have hs₁ := (hs.ffsBalloc hballoc).congr
        (t := s₁.grow f (lbn.val * 4096 + blkoffset + chunk.length)) (by simp) (by simp) (by simp)
      have hok := hguard s₁ bp hballoc
      refine hs₁.dedup_bwrite ?_ ?_ ?_ hdedup
      · simpa using ffsBalloc_ptr_ne_zero hballoc hs.boot
      · simpa using ffsBalloc_blkno hballoc
      · exact ⟨by simpa using hok.new, by simpa using hok.same, by simpa using hok.other⟩
  trunc := by
    intro s t length env err hs hguard hrun
    rcases ffsTruncate_cases hs.boot hrun with rfl | ⟨-, -, rfl⟩ |
      ⟨lbn, s₁, bp, -, hlbn, hballoc, rfl⟩
    · exact hs
    · exact hs.truncTail f length
    · have hs₁ := hs.ffsBalloc hballoc
      have hok := hguard lbn s₁ bp hlbn hballoc
      split
      · exact (hs₁.congr (t := s₁.setSize f length) rfl rfl rfl).bwrite_of_or (by simpa using hok)
      · exact (hs₁.bwrite_of_or hok).truncTail f length
  evict hs := hs.congr rfl rfl rfl

/-- Along the guarded runs the key of every entry is the hash of the bytes of its block. -/
theorem key_eq_sha1 (sha1 : Block → Key) (h : (keysSound ι sha1).Reachable sha1 s) :
    ∀ p e, InUse s.table p e → e.key = sha1 (s.disk e.blockptr) := by
  have hsound : Sound sha1 s :=
    h.invariant (fun s hs => Sound.of_fresh hs) (fun f => Sound.preserved)
  exact fun p e he => hsound.key he

/-- The write of a byte, and the entry it makes. -/
theorem key_eq_sha1_one : (newEntry (prefixKey (oneByte 1)) 1).key =
    prefixKey ((oneFile prefixKey () 1).disk 1) := by
  have hreach : (keysSound Unit prefixKey).Reachable prefixKey (oneFile prefixKey () 1) := by
    apply oneFile_reachable
    apply iterWrite_hole (P := fun _ s₁ f lbn => SoundIter prefixKey s₁ (s₁.ptr f lbn)) rfl rfl rfl
    refine ⟨fun _ => ⟨?_, rfl, fun hlen => by cases hlen⟩, fun p e hkey => ?_,
      fun p e hkey => ?_⟩
    · exact findBlock_eq_none.mpr fun p e he => absurd he not_inUse_mkfsTable
    · exact absurd (inUse_of_findKey hkey).1 not_inUse_mkfsTable
    · exact absurd (inUse_of_findKey hkey).1 not_inUse_mkfsTable
  exact key_eq_sha1 prefixKey hreach (0, 0) _ (inUse_oneFile.mpr ⟨rfl, rfl⟩)

/-- Two bytes written one after the other to the same place: the first entry still has the
hash of the first byte. -/
theorem key_eq_sha1_fails : ¬∃ sha1 : Block → Key, sha1 (oneByte 1) ≠ sha1 (oneByte 2) ∧
    ∀ s, execAll sha1 (smallFs Unit) [writeByte () 1 1, writeByte () 2 1] = some s →
      ∀ p e, InUse s.table p e → e.key = sha1 (s.disk e.blockptr) := by
  rintro ⟨sha1, hne, hall⟩
  rw [execAll_cons exec_oneFile, execAll_cons (exec_overwritten hne)] at hall
  have hkey := hall _ rfl (0, 0) _ (inUse_overwritten.mpr (Or.inr ⟨rfl, rfl⟩))
  simp only [newEntry, disk_overwritten] at hkey
  exact hne hkey

end EmbeddedOs.Ddfs
