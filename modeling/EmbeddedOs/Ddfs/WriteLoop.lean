import EmbeddedOs.Ddfs.Runs

/-!
# The loop of `ffs_write` over any file system

The loop of `ffs_write` with what it calls as parameters, so that it covers all logical blocks,
whatever `UFS_BALLOC` and the deduplication step do to the memory beneath. It records the
iterations that come as far as `hash_block`. With the operations on direct blocks it is the loop
of `ffsWrite`.
-/

namespace EmbeddedOs.Ddfs

/-- What `ffs_write` calls, and what it learns from outside. -/
structure WriteOps (σ : Type*) where
  /-- `ip->i_size`. -/
  isize : σ → ℕ
  /-- Set `ip->i_size` when the write ends behind it. -/
  grow : σ → ℕ → σ
  /-- The write then ends inside the file. -/
  le_isize_grow : ∀ s n, n ≤ isize (grow s n)
  /-- `UFS_BALLOC` for `size` bytes of block `lbn`, counted from its start. -/
  balloc : σ → (lbn size : ℕ) → (clrbuf : Bool) → Option (Except Errno (σ × Buf))
  /-- The number of bytes of a chunk after which the copy from user space fails. -/
  fault : ℕ → Option ℕ
  /-- The memory behind the buffer of a block. -/
  beyond : ℕ → ℕ → UInt8
  /-- Look the key up, and switch the pointer of the block. -/
  dedup : σ → ℕ → Key → Option σ
  /-- Write the buffer of a block. -/
  bwrite : σ → ℕ → Buf → σ

/-- An iteration that comes as far as `hash_block`. -/
structure Iteration (σ : Type*) where
  /-- `lbn`. -/
  lbn : ℕ
  /-- `blkoffset`. -/
  blkoffset : ℕ
  /-- The bytes of the user for this block. -/
  chunk : List UInt8
  /-- The number of bytes after which their copy fails. -/
  fault : Option ℕ
  /-- The memory behind the buffer. -/
  beyond : ℕ → UInt8
  /-- The buffer that `UFS_BALLOC` returned. -/
  bp : Buf
  /-- The state before the deduplication step. -/
  state : σ

namespace Iteration

variable {σ : Type*} (it : Iteration σ)

/-- The buffer after the copy from user space, and the error of the copy. -/
def copied : Buf × Option Errno := vnIoFaultUiomove it.bp it.blkoffset it.chunk it.fault

/-- The bytes that `hash_block` reads: 4096 bytes from `b_data + blkoffset` on. -/
def hashed : Block := hashedBytes it.copied.1.data it.blkoffset it.beyond

/-- The buffer as it is written. -/
def written : Buf := finishBuf it.copied.1 it.copied.2 it.chunk.length

/-- The deduplication step and the write of the buffer. -/
def finish (ops : WriteOps σ) (sha1 : Block → Key) : Option σ :=
  (ops.dedup it.state it.lbn (sha1 it.hashed)).map fun s => ops.bwrite s it.lbn it.written

end Iteration

variable {σ : Type*}

/-- The iteration that writes `chunk` behind `UFS_BALLOC`: the file grows, and the chunk is cut
at the end of the block. -/
def WriteOps.iteration (ops : WriteOps σ) (s : σ) (lbn blkoffset : ℕ) (chunk : List UInt8)
    (bp : Buf) : Iteration σ :=
  let s := ops.grow s (lbn * 4096 + blkoffset + chunk.length)
  ⟨lbn, blkoffset, chunk.take (blksize (ops.isize s) lbn), ops.fault lbn, ops.beyond lbn, bp, s⟩

/-- The loop of `ffs_write`, with its iterations. -/
def writeLoop (ops : WriteOps σ) (sha1 : Block → Key) :
    ℕ → σ → ℕ → List UInt8 → List (Iteration σ) × Option (σ × Option Errno)
  | 0, s, _, _ => ([], some (s, none))
  | fuel + 1, s, offset, data =>
    if data = [] then ([], some (s, none))
    else
      let lbn := offset / 4096
      let blkoffset := offset % 4096
      let chunk := data.take (4096 - blkoffset)
      match ops.balloc s lbn (blkoffset + chunk.length) (chunk.length < 4096) with
      | none => ([], none)
      | some (.error e) => ([], some (s, some e))
      | some (.ok (s, bp)) =>
        let it := ops.iteration s lbn blkoffset chunk bp
        match it.finish ops sha1, it.copied.2 with
        | none, _ => ([it], none)
        | some s, some e => ([it], some (s, some e))
        | some s, none =>
          let moved := it.chunk.length
          if moved = 0 then ([it], some (s, none))
          else
            let r := writeLoop ops sha1 fuel s (offset + moved) (data.drop moved)
            (it :: r.1, r.2)

/-- The iterations of `ffs_write` of `data` at `offset`, which is refused if it ends behind
`fs_maxfilesize`. -/
def writeIterations (ops : WriteOps σ) (sha1 : Block → Key) (maxfilesize : ℕ) (s : σ)
    (ioflag : IoFlag) (offset : ℕ) (data : List UInt8) : List (Iteration σ) :=
  let offset := if ioflag.append then ops.isize s else offset
  if maxfilesize < offset + data.length then []
  else (writeLoop ops sha1 data.length s offset data).1

section Trace

variable {ops : WriteOps σ} {sha1 : Block → Key} {fuel : ℕ} {s s' : σ} {offset : ℕ}
  {data : List UInt8} {bp : Buf}

/-- A buffer is got for the first block of a write. -/
def GetsBuffer (ops : WriteOps σ) (s : σ) (offset : ℕ) (data : List UInt8) (s' : σ) (bp : Buf) :
    Prop :=
  let chunk := data.take (4096 - offset % 4096)
  ops.balloc s (offset / 4096) (offset % 4096 + chunk.length) (chunk.length < 4096) =
    some (.ok (s', bp))

/-- The first iteration of a write that gets a buffer. -/
def firstIteration (ops : WriteOps σ) (offset : ℕ) (data : List UInt8) (s' : σ) (bp : Buf) :
    Iteration σ :=
  ops.iteration s' (offset / 4096) (offset % 4096) (data.take (4096 - offset % 4096)) bp

/-- The chunk of an iteration fits into its block. -/
theorem chunk_firstIteration (hdata : data ≠ []) :
    (firstIteration ops offset data s' bp).chunk = data.take (4096 - offset % 4096) := by
  obtain ⟨hchunk, hfit⟩ := chunk_fits hdata offset
  exact take_blksize hchunk hfit (ops.le_isize_grow _ _)

/-- Without data, or without a buffer for the first block, there are no iterations. -/
theorem writeLoop_eq_nil (h : data = [] ∨ ∀ s' bp, ¬GetsBuffer ops s offset data s' bp) :
    (writeLoop ops sha1 fuel s offset data).1 = [] := by
  cases fuel with
  | zero => rfl
  | succ fuel =>
    unfold writeLoop
    by_cases hdata : data = []
    · rw [if_pos hdata]
    · have hnone := h.resolve_left hdata
      unfold GetsBuffer at hnone
      simp only [if_neg hdata]
      split
      · rfl
      · rfl
      · next hballoc => exact absurd hballoc (hnone _ _)

/-- With a buffer for the first block there is an iteration for it, and those of the rest of the
data unless the loop ends. -/
theorem writeLoop_eq_cons (sha1 : Block → Key) (fuel : ℕ) (hdata : data ≠ [])
    (h : GetsBuffer ops s offset data s' bp) :
    let it := firstIteration ops offset data s' bp
    ∃ rest, (writeLoop ops sha1 (fuel + 1) s offset data).1 = it :: rest ∧
      (rest = [] ∨ ∃ t, rest = (writeLoop ops sha1 fuel t (offset + it.chunk.length)
        (data.drop it.chunk.length)).1) := by
  intro it
  unfold GetsBuffer at h
  rw [writeLoop.eq_2]
  simp only [if_neg hdata, h]
  have hit :
      ops.iteration s' (offset / 4096) (offset % 4096) (data.take (4096 - offset % 4096)) bp =
        it := rfl
  simp only [hit]
  cases it.finish ops sha1 with
  | none => exact ⟨[], rfl, Or.inl rfl⟩
  | some t =>
    cases it.copied.2 with
    | some e => exact ⟨[], rfl, Or.inl rfl⟩
    | none =>
      by_cases hmoved : it.chunk.length = 0
      · simp only [if_pos hmoved]
        exact ⟨[], rfl, Or.inl rfl⟩
      · simp only [if_neg hmoved]
        exact ⟨_, rfl, Or.inr ⟨t, rfl⟩⟩

/-- The cases of a loop. -/
theorem writeLoop_cases (ops : WriteOps σ) (sha1 : Block → Key) (fuel : ℕ) (s : σ) (offset : ℕ)
    (data : List UInt8) : (writeLoop ops sha1 fuel s offset data).1 = [] ∨
    ∃ n s' bp rest, fuel = n + 1 ∧ data ≠ [] ∧ GetsBuffer ops s offset data s' bp ∧
      (writeLoop ops sha1 fuel s offset data).1 =
        firstIteration ops offset data s' bp :: rest ∧
      (rest = [] ∨ ∃ t, rest = (writeLoop ops sha1 n t
        (offset + (data.take (4096 - offset % 4096)).length)
        (data.drop (data.take (4096 - offset % 4096)).length)).1) := by
  by_cases hdata : data = []
  · exact Or.inl (writeLoop_eq_nil (Or.inl hdata))
  · by_cases hbuf : ∃ s' bp, GetsBuffer ops s offset data s' bp
    · cases fuel with
      | zero => exact Or.inl rfl
      | succ n =>
        obtain ⟨s', bp, hbuf⟩ := hbuf
        obtain ⟨rest, hcons, hrest⟩ := writeLoop_eq_cons sha1 n hdata hbuf
        rw [chunk_firstIteration hdata] at hrest
        exact Or.inr ⟨n, s', bp, rest, rfl, hdata, hbuf, hcons, hrest⟩
    · exact Or.inl (writeLoop_eq_nil (Or.inr fun s' bp h => hbuf ⟨s', bp, h⟩))

/-- A write that gets a buffer for its first block has an iteration for it. -/
theorem firstIteration_mem {maxfilesize start : ℕ} (sha1 : Block → Key) (ioflag : IoFlag)
    (offset : ℕ) (hdata : data ≠ []) (h : GetsBuffer ops s start data s' bp)
    (hmax : start + data.length ≤ maxfilesize)
    (hstart : (if ioflag.append then ops.isize s else offset) = start) :
    firstIteration ops start data s' bp ∈
      writeIterations ops sha1 maxfilesize s ioflag offset data := by
  obtain ⟨fuel, hfuel⟩ := Nat.exists_eq_add_of_lt (List.length_pos_iff.mpr hdata)
  obtain ⟨rest, hcons, -⟩ := writeLoop_eq_cons sha1 fuel hdata h
  rw [Nat.zero_add] at hfuel
  unfold writeIterations
  simp only [hstart]
  rw [if_neg (by omega), hfuel, hcons]
  exact List.mem_cons_self

/-- The rule for the iterations of a write: what is left to write keeps `I`, and with it every
iteration behind a buffer meets `P`. -/
theorem writeLoop_rule {P : Iteration σ → Prop} {I : ℕ → List UInt8 → Prop}
    (hrest : ∀ {offset data}, data ≠ [] → I offset data →
      I (offset + (data.take (4096 - offset % 4096)).length)
        (data.drop (data.take (4096 - offset % 4096)).length))
    (hfirst : ∀ {s offset data s' bp}, data ≠ [] → I offset data →
      GetsBuffer ops s offset data s' bp → P (firstIteration ops offset data s' bp))
    (h : I offset data) : ∀ it ∈ (writeLoop ops sha1 fuel s offset data).1, P it := by
  induction fuel generalizing s offset data with
  | zero => simp [writeLoop]
  | succ fuel ih =>
    rcases writeLoop_cases ops sha1 (fuel + 1) s offset data with
      hnil | ⟨n, s', bp, rest, hn, hdata, hbuf, hcons, htail⟩
    · simp [hnil]
    · obtain rfl := Nat.succ.inj hn
      rw [hcons, List.forall_mem_cons]
      refine ⟨hfirst hdata h hbuf, ?_⟩
      rcases htail with rfl | ⟨t, rfl⟩
      · simp
      · exact ih (hrest hdata h)

/-- The same for a whole write. -/
theorem writeIterations_rule {P : Iteration σ → Prop} {I : ℕ → List UInt8 → Prop}
    {maxfilesize : ℕ} {ioflag : IoFlag}
    (hrest : ∀ {offset data}, data ≠ [] → I offset data →
      I (offset + (data.take (4096 - offset % 4096)).length)
        (data.drop (data.take (4096 - offset % 4096)).length))
    (hfirst : ∀ {s offset data s' bp}, data ≠ [] → I offset data →
      GetsBuffer ops s offset data s' bp → P (firstIteration ops offset data s' bp))
    (h : I (if ioflag.append then ops.isize s else offset) data) :
    ∀ it ∈ writeIterations ops sha1 maxfilesize s ioflag offset data, P it := by
  intro it hit
  unfold writeIterations at hit
  generalize (if ioflag.append then ops.isize s else offset) = start at h hit
  by_cases hbig : maxfilesize < start + data.length
  · simp [hbig] at hit
  · rw [if_neg hbig] at hit
    exact writeLoop_rule hrest hfirst h it hit

end Trace

/-! ## Simulation -/

section Simulation

variable {τ : Type*}

/-- The iteration over another state. -/
def Iteration.map (abs : σ → τ) (it : Iteration σ) : Iteration τ :=
  ⟨it.lbn, it.blkoffset, it.chunk, it.fault, it.beyond, it.bp, abs it.state⟩

/-- On the blocks below `limit` the operations `ops` do what `ops'` do, seen through `abs`. -/
structure WriteOps.Simulates (ops : WriteOps σ) (ops' : WriteOps τ) (abs : σ → τ) (limit : ℕ) :
    Prop where
  isize : ∀ s, ops'.isize (abs s) = ops.isize s
  grow : ∀ s n, ops'.grow (abs s) n = abs (ops.grow s n)
  balloc : ∀ s lbn size clrbuf, lbn < limit → ops'.balloc (abs s) lbn size clrbuf =
    (ops.balloc s lbn size clrbuf).map fun r => r.map fun r => (abs r.1, r.2)
  fault : ops'.fault = ops.fault
  beyond : ops'.beyond = ops.beyond
  dedup : ∀ s lbn hash, lbn < limit → ops'.dedup (abs s) lbn hash = (ops.dedup s lbn hash).map abs
  bwrite : ∀ s lbn bp, lbn < limit → ops'.bwrite (abs s) lbn bp = abs (ops.bwrite s lbn bp)

namespace WriteOps.Simulates

variable {ops : WriteOps σ} {ops' : WriteOps τ} {abs : σ → τ} {limit : ℕ}
  (h : ops.Simulates ops' abs limit)
include h

theorem iteration (s : σ) (lbn blkoffset : ℕ) (chunk : List UInt8) (bp : Buf) :
    ops'.iteration (abs s) lbn blkoffset chunk bp =
      (ops.iteration s lbn blkoffset chunk bp).map abs := by
  simp only [WriteOps.iteration, Iteration.map, h.grow, h.isize, h.fault, h.beyond]

theorem finish (sha1 : Block → Key) {it : Iteration σ} (hlbn : it.lbn < limit) :
    (it.map abs).finish ops' sha1 = (it.finish ops sha1).map abs := by
  have hdedup : ops'.dedup (abs it.state) it.lbn (sha1 it.hashed) =
      (ops.dedup it.state it.lbn (sha1 it.hashed)).map abs := h.dedup _ _ _ hlbn
  have hmap : (it.map abs).finish ops' sha1 =
      (ops'.dedup (abs it.state) it.lbn (sha1 it.hashed)).map fun t =>
        ops'.bwrite t it.lbn it.written := rfl
  rw [hmap, hdedup, Iteration.finish, Option.map_map, Option.map_map]
  congr 1
  funext t
  exact h.bwrite t it.lbn it.written hlbn

/-- The loops do the same below the limit. -/
theorem writeLoop (sha1 : Block → Key) (fuel : ℕ) (s : σ) (offset : ℕ) (data : List UInt8)
    (hlimit : offset + data.length ≤ limit * 4096) :
    Ddfs.writeLoop ops' sha1 fuel (abs s) offset data =
      ((Ddfs.writeLoop ops sha1 fuel s offset data).1.map (Iteration.map abs),
        (Ddfs.writeLoop ops sha1 fuel s offset data).2.map fun r => (abs r.1, r.2)) := by
  induction fuel generalizing s offset data with
  | zero => rfl
  | succ fuel ih =>
    unfold Ddfs.writeLoop
    by_cases hdata : data = []
    · simp only [if_pos hdata]
      rfl
    · have hlbn : offset / 4096 < limit := by
        have hpos := List.length_pos_iff.mpr hdata
        omega
      simp only [if_neg hdata, h.balloc _ _ _ _ hlbn]
      cases ops.balloc s (offset / 4096) (offset % 4096 + (data.take (4096 - offset % 4096)).length)
          (decide ((data.take (4096 - offset % 4096)).length < 4096)) with
      | none => rfl
      | some r =>
        cases r with
        | error e => rfl
        | ok r =>
          simp only [Option.map_some, Except.map, h.iteration]
          generalize hit : ops.iteration r.1 (offset / 4096) (offset % 4096)
            (data.take (4096 - offset % 4096)) r.2 = it
          have hitlbn : it.lbn < limit := by
            rw [← hit]
            exact hlbn
          have hcopied : (it.map abs).copied = it.copied := rfl
          have hchunk : (it.map abs).chunk = it.chunk := rfl
          simp only [h.finish sha1 hitlbn, hcopied, hchunk]
          cases it.finish ops sha1 with
          | none => rfl
          | some t =>
            cases it.copied.2 with
            | some e => rfl
            | none =>
              simp only [Option.map_some]
              by_cases hmoved : it.chunk.length = 0
              · simp only [if_pos hmoved]
                rfl
              · simp only [if_neg hmoved]
                have hshort : it.chunk.length ≤ data.length := by
                  rw [← hit]
                  simp only [WriteOps.iteration, List.length_take]
                  omega
                rw [ih t (offset + it.chunk.length) (data.drop it.chunk.length)
                  (by rw [List.length_drop]; omega)]
                rfl

end WriteOps.Simulates

end Simulation

/-! ## Direct blocks -/

variable {ι : Type} [DecidableEq ι]

/-- The operations on the direct blocks of a file. -/
def directOps (f : ι) (env : ℕ → Env) : WriteOps (Fs ι) where
  isize s := s.size f
  grow s n := s.grow f n
  le_isize_grow s n := by
    rw [Fs.size_grow, if_pos rfl]
    exact Nat.le_max_right _ _
  balloc s lbn size clrbuf :=
    if h : lbn < 12 then ffsBalloc s f ⟨lbn, h⟩ size clrbuf (env lbn) else none
  fault lbn := (env lbn).fault
  beyond lbn := (env lbn).beyond
  dedup s lbn hash := if h : lbn < 12 then dedupBlock s f ⟨lbn, h⟩ hash (env lbn).entry else none
  bwrite s lbn bp := if h : lbn < 12 then s.bwrite f ⟨lbn, h⟩ bp else s

section Direct

variable (f : ι) (env : ℕ → Env) (s : Fs ι) {lbn : ℕ} (h : lbn < 12)
include h

theorem directOps_balloc (size : ℕ) (clrbuf : Bool) :
    (directOps f env).balloc s lbn size clrbuf = ffsBalloc s f ⟨lbn, h⟩ size clrbuf (env lbn) :=
  dif_pos h

/-- An iteration on a direct block ends with the write of its buffer. -/
theorem directOps_finish (sha1 : Block → Key) {it : Iteration (Fs ι)} (hit : it.lbn = lbn) :
    it.finish (directOps f env) sha1 =
      (dedupBlock it.state f ⟨lbn, h⟩ (sha1 it.hashed) (env lbn).entry).map fun t =>
        t.bwrite f ⟨lbn, h⟩ it.written := by
  subst hit
  simp only [Iteration.finish, directOps, dif_pos h]

/-- What `ffs_write` does behind `UFS_BALLOC` is such an iteration. -/
theorem writeBlock_eq_finish (sha1 : Block → Key) (blkoffset : ℕ) (chunk : List UInt8) (bp : Buf) :
    let it := (directOps f env).iteration s lbn blkoffset chunk bp
    writeBlock sha1 s f ⟨lbn, h⟩ blkoffset chunk (env lbn) bp =
      (it.finish (directOps f env) sha1).map fun t => (t, it.copied.2, it.chunk.length) := by
  intro it
  rw [directOps_finish f env h sha1 rfl, Option.map_map]
  rfl

end Direct

/-- On direct blocks the loop is that of `ffsWrite`. -/
theorem writeLoop_directOps (sha1 : Block → Key) (f : ι) (env : ℕ → Env) (fuel : ℕ) (s : Fs ι)
    (offset : ℕ) (data : List UInt8) :
    (writeLoop (directOps f env) sha1 fuel s offset data).2 =
      ffsWriteLoop sha1 f env fuel s offset data := by
  induction fuel generalizing s offset data with
  | zero => rfl
  | succ fuel ih =>
    unfold writeLoop ffsWriteLoop
    by_cases hdata : data = []
    · simp [hdata]
    · by_cases hlbn : offset / 4096 < 12
      · simp only [hdata, if_false, dif_pos hlbn, ffsWriteIter, directOps_balloc f env s hlbn]
        generalize data.take (4096 - offset % 4096) = chunk
        cases ffsBalloc s f ⟨offset / 4096, hlbn⟩ (offset % 4096 + chunk.length)
            (decide (chunk.length < 4096)) (env (offset / 4096)) with
        | none => rfl
        | some r =>
          cases r with
          | error e => rfl
          | ok r =>
            simp only [writeBlock_eq_finish f env r.1 hlbn]
            generalize
              (directOps f env).iteration r.1 (offset / 4096) (offset % 4096) chunk r.2 = it
            cases it.finish (directOps f env) sha1 with
            | none => rfl
            | some t =>
              cases herr : it.copied.2 with
              | some e => simp
              | none =>
                simp only [Option.map_some]
                by_cases hmoved : it.chunk.length = 0
                · simp [hmoved]
                · simp only [if_neg hmoved, ih]
      · have hnone : ∀ size clrbuf, (directOps f env).balloc s (offset / 4096) size clrbuf = none :=
          fun size clrbuf => dif_neg hlbn
        simp only [hdata, if_false, dif_neg hlbn, hnone]

/-! ## What `hash_block` reads -/

namespace Iteration

variable {σ : Type*} (it : Iteration σ)

/-- `hash_block` is applied to the 4096 bytes of the buffer, as they are written. -/
def Whole : Prop := it.blkoffset = 0 ∧ it.hashed = it.written.data

/-- The copy from user space fails. -/
def Faults : Prop := ∃ n, it.fault = some n ∧ n < it.chunk.length

/-- The copy of a whole block fails, and leaves bytes other than zero in pages that were not
valid. They are cleared, after `hash_block` has read them. -/
def Clears : Prop :=
  it.Faults ∧ it.chunk.length = 4096 ∧ it.bp.cached = false ∧ it.bp.valid = false ∧
    it.copied.1.data ≠ fun _ => 0

/-- The copy changes the bytes of the buffer only. -/
theorem copied_flags :
    it.copied.1.cached = it.bp.cached ∧ it.copied.1.valid = it.bp.valid := by
  simp only [copied, vnIoFaultUiomove]
  split
  · split <;> exact ⟨rfl, rfl⟩
  · exact ⟨rfl, rfl⟩

theorem copied_error : it.copied.2 ≠ none ↔ it.Faults := by
  simp only [copied, vnIoFaultUiomove, Faults]
  cases it.fault with
  | none => simp
  | some n => by_cases h : n < it.chunk.length <;> simp [h]

/-- The bytes that are written are those of the copy, unless the pages are cleared. -/
theorem written_data (h : ¬it.Clears) : it.written.data = it.copied.1.data := by
  obtain ⟨hcached, hvalid⟩ := it.copied_flags
  simp only [written, finishBuf, vfsBioClrbuf, hcached, hvalid]
  split
  · next hfail =>
    split
    · rfl
    · next hinvalid =>
      by_contra hne
      exact h ⟨it.copied_error.mp hfail.1, hfail.2.2, hfail.2.1, by simpa using hinvalid,
        fun hzero => hne hzero.symm⟩
  · rfl

/-- Cleared pages hold other bytes than `hash_block` has read. -/
theorem written_data_ne (h : it.Clears) : it.written.data ≠ it.copied.1.data := by
  obtain ⟨hfaults, hlen, hcached, hvalid, hdata⟩ := h
  have hflags := it.copied_flags
  have hwritten : it.written.data = fun _ => 0 := by
    have hfail : it.copied.2 ≠ none ∧ it.copied.1.cached = false ∧ it.chunk.length = 4096 :=
      ⟨it.copied_error.mpr hfaults, hflags.1.trans hcached, hlen⟩
    rw [written, finishBuf, if_pos hfail, vfsBioClrbuf, if_neg (by simp [hflags.2, hvalid])]
  rw [hwritten]
  exact hdata.symm

/-- The whole block is hashed as it is written if the iteration starts with it and clears no
pages. -/
theorem whole_iff : it.Whole ↔ it.blkoffset = 0 ∧ ¬it.Clears := by
  have hhashed (hoff : it.blkoffset = 0) : it.hashed = it.copied.1.data := by
    rw [hashed, hoff, hashedBytes_zero]
  constructor
  · rintro ⟨hoff, hdata⟩
    exact ⟨hoff, fun hclears => it.written_data_ne hclears (hdata.symm.trans (hhashed hoff))⟩
  · rintro ⟨hoff, hclears⟩
    exact ⟨hoff, (hhashed hoff).trans (it.written_data hclears).symm⟩

end Iteration

section Hashed

variable {σ : Type*} {ops : WriteOps σ} {sha1 : Block → Key}

/-- All iterations of a write that starts at a block boundary start with their block. -/
theorem writeLoop_aligned {fuel : ℕ} {s : σ} {offset : ℕ} {data : List UInt8}
    (h : offset % 4096 = 0) :
    ∀ it ∈ (writeLoop ops sha1 fuel s offset data).1, it.blkoffset = 0 := by
  refine writeLoop_rule (I := fun offset data => data = [] ∨ offset % 4096 = 0) ?_ ?_ (Or.inr h)
  · intro offset data hdata hstart
    have halign := hstart.resolve_left hdata
    rw [halign, Nat.sub_zero, List.length_take, List.drop_eq_nil_iff]
    -- a chunk ends at the next block boundary, or with the data
    omega
  · intro s offset data s' bp hdata hstart hbuf
    exact hstart.resolve_left hdata

/-- Exactly the writes that start at a block boundary, and clear no pages behind `hash_block`,
hash whole blocks; apart from those that come to no block at all. -/
theorem hashes_whole_blocks (ops : WriteOps σ) (sha1 : Block → Key) (maxfilesize : ℕ) (s : σ)
    (ioflag : IoFlag) (offset : ℕ) (data : List UInt8) :
    let start := if ioflag.append then ops.isize s else offset
    (∀ it ∈ writeIterations ops sha1 maxfilesize s ioflag offset data, it.Whole) ↔
      maxfilesize < start + data.length ∨ data = [] ∨
        (∀ s' bp, ¬GetsBuffer ops s start data s' bp) ∨
        (start % 4096 = 0 ∧
          ∀ it ∈ writeIterations ops sha1 maxfilesize s ioflag offset data, ¬it.Clears) := by
  intro start
  have hiters : writeIterations ops sha1 maxfilesize s ioflag offset data =
      if maxfilesize < start + data.length then []
      else (writeLoop ops sha1 data.length s start data).1 := rfl
  rw [hiters]
  by_cases hbig : maxfilesize < start + data.length
  · simp [hbig]
  · simp only [hbig, false_or]
    constructor
    · intro hall
      by_cases hdata : data = []
      · exact Or.inl hdata
      · refine Or.inr ?_
        by_cases hbuf : ∃ s' bp, GetsBuffer ops s start data s' bp
        · obtain ⟨s', bp, hbuf⟩ := hbuf
          refine Or.inr ⟨?_, fun it hit => ((it.whole_iff).mp (hall it hit)).2⟩
          -- the first iteration starts where the write does
          have hfirst := firstIteration_mem sha1 ioflag offset hdata hbuf (not_lt.mp hbig) rfl
          rw [hiters, if_neg hbig] at hfirst
          exact (hall _ hfirst).1
        · exact Or.inl fun s' bp h => hbuf ⟨s', bp, h⟩
    · rintro (hdata | hbuf | ⟨halign, hclears⟩)
      · simp [writeLoop_eq_nil (Or.inl hdata)]
      · simp [writeLoop_eq_nil (Or.inr hbuf)]
      · exact fun it hit => (it.whole_iff).mpr ⟨writeLoop_aligned halign it hit, hclears it hit⟩

/-- The write of a byte behind the first one of an empty file: `hash_block` reads from the
second byte of the buffer on, and a byte behind it. -/
theorem hashes_whole_blocks_fails : ¬∀ (sha1 : Block → Key) (maxfilesize : ℕ) (s : Fs Unit)
    (env : ℕ → Env) (ioflag : IoFlag) (offset : ℕ) (data : List UInt8),
    ∀ it ∈ writeIterations (directOps () env) sha1 maxfilesize s ioflag offset data,
      it.Whole := by
  intro hall
  have hbuf : GetsBuffer (directOps () fun _ => zeroEnv 1) (smallFs Unit) 1 [1]
      (((smallFs Unit).take 1).setPtr () 0 1) ⟨1, fun _ => 0, true, false⟩ := by
    unfold GetsBuffer
    have hlbn : 0 < 12 := by decide
    exact (directOps_balloc () _ (smallFs Unit) hlbn 2 true).trans (ffsBalloc_hole rfl rfl rfl rfl)
  have hfirst := firstIteration_mem prefixKey ⟨false, false⟩ 1 (by simp) hbuf (Nat.le_refl 2) rfl
  exact absurd (hall prefixKey 2 (smallFs Unit) _ _ _ _ _ hfirst).1 (by decide)

end Hashed

end EmbeddedOs.Ddfs
