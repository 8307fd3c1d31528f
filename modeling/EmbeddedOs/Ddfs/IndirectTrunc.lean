import EmbeddedOs.Ddfs.MkfsLayout
import EmbeddedOs.Lib.BlockTree
import Mathlib.Algebra.Order.BigOperators.Group.Finset

/-!
# Releasing the blocks below an indirect block

`ffs_indirtrunc` of `ddfs_inode.c` releases what a file has below an indirect block behind the new
end of the file. A buffer is one with its block, so that a write counts as soon as it is issued. Of
each call the order of its reads, writes and releases is kept: the pointers are written before what
they named is released.
-/

namespace EmbeddedOs.Ddfs

open Lib BlockTree

/-- `NINDIR`: an indirect block has pointers of 8 bytes. -/
def Geometry.nindir (g : Geometry) : ℕ := g.bsize / 8

/-- `btodb`. -/
def btodb (bytes : ℕ) : ℕ := bytes / 512

/-- The pointers in the indirect blocks, by the block and their place in it. -/
abbrev PtrBlocks := ℤ → ℕ → ℤ

/-- What a truncation does to the disk. -/
inductive TruncOp where
  /-- `ffs_breadz` of the indirect block `bn` as the logical block `lbn`. -/
  | bread (lbn bn : ℤ)
  /-- `bwrite` or `bdwrite` of the indirect block `bn`. -/
  | bwrite (bn : ℤ) (bap : ℕ → ℤ)
  /-- `ffs_blkfree` of `size` bytes. -/
  | blkfree (bn : ℤ) (size : ℕ)

/-- What the environment decides: which reads and writes fail. -/
structure TruncIo (ε : Type) where
  /-- The error of `ffs_breadz`, by the logical block. -/
  bread : ℤ → Option ε
  /-- The error of `bwrite`, by the logical block. -/
  bwrite : ℤ → Option ε
  /-- The error of `ffs_update`. -/
  update : Option ε
  /-- The error of `vtruncbuf`. -/
  vtruncbuf : Option ε

/-- What a part of a truncation did. -/
structure Released (ε : Type) where
  /-- The operations, in their order. -/
  ops : List TruncOp
  /-- `blocksreleased`. -/
  count : ℕ
  /-- `allerror`. -/
  err : Option ε

namespace Released

variable {ε : Type}

/-- Nothing is done. -/
def nothing : Released ε := ⟨[], 0, none⟩

/-- One part after the other; the last error is returned. -/
def andThen (r r' : Released ε) : Released ε :=
  ⟨r.ops ++ r'.ops, r.count + r'.count, r'.err.or r.err⟩

end Released

/-- `ffs_blkfree` of `size` bytes, counted in `blocksreleased`. -/
def blkfreeCounted {ε : Type} (bn : ℤ) (size : ℕ) : Released ε :=
  ⟨[.blkfree bn size], btodb size, none⟩

/-- The pointers behind an operation. -/
def TruncOp.write (blks : PtrBlocks) : TruncOp → PtrBlocks
  | .bread _ _ => blks
  | .bwrite bn bap => Function.update blks bn bap
  | .blkfree _ _ => blks

/-- The pointers behind operations. -/
def writeOps (ops : List TruncOp) (blks : PtrBlocks) : PtrBlocks := ops.foldl TruncOp.write blks

/-- The fragments from `bn` on. -/
def pieceFrags (bn : ℤ) (n : ℕ) : List ℤ := (List.range n).map fun i : ℕ => bn + (i : ℤ)

/-- The fragments that an operation releases. -/
def TruncOp.frags (g : Geometry) : TruncOp → List ℤ
  | .bread _ _ => []
  | .bwrite _ _ => []
  | .blkfree bn size => pieceFrags bn (size / g.fsize)

/-- How often operations release a fragment. -/
def given (g : Geometry) (ops : List TruncOp) (x : ℤ) : ℕ :=
  (ops.flatMap (TruncOp.frags g)).count x

/-- The loop of `ffs_indirtrunc` over the `n` pointers behind `last` that are left, from the last
one down. `child` releases what is below a pointer. -/
def indirLoop {ε : Type} (g : Geometry) (child : PtrBlocks → ℤ → ℤ → Released ε) (bap : ℕ → ℤ)
    (factor last : ℤ) : ℕ → ℤ → PtrBlocks → Released ε
  | 0, _, _ => .nothing
  | n + 1, nlbn, blks =>
    let nb := bap (last + (n + 1 : ℕ)).toNat
    if nb = 0 then indirLoop g child bap factor last n (nlbn + factor) blks
    else
      let r := (child blks nlbn nb).andThen (blkfreeCounted nb g.bsize)
      r.andThen (indirLoop g child bap factor last n (nlbn + factor) (writeOps r.ops blks))

/-- The body of `ffs_indirtrunc`; `child` is the recursive call for a level above `SINGLE`. -/
def indirtruncBody {ε : Type} (g : Geometry) (io : TruncIo ε) (level : ℕ)
    (child : Option (PtrBlocks → ℤ → ℤ → ℤ → Released ε)) (blks : PtrBlocks)
    (lbn dbn lastbn : ℤ) : Released ε :=
  let nindir : ℤ := g.nindir
  let factor : ℤ := nindir ^ level
  let last := if 0 < lastbn then lastbn / factor else lastbn
  let read : Released ε := ⟨[.bread lbn dbn], 0, io.bread lbn⟩
  if (io.bread lbn).isSome then read
  else
    let bap := blks dbn
    let write : Released ε :=
      if lastbn ≠ -1 then
        ⟨[.bwrite dbn fun i => if last < i then 0 else bap i], 0, io.bwrite lbn⟩
      else .nothing
    let blks := writeOps write.ops blks
    let whole := indirLoop g (fun blks nlbn nb =>
        child.elim .nothing fun child => child blks nlbn nb (-1)) bap factor last
      (nindir - 1 - last).toNat (lbn + 1 - (nindir - 1) * factor) blks
    let blks := writeOps whole.ops blks
    -- where the loop ends
    let i := min last (nindir - 1)
    let nb := bap i.toNat
    let part : Released ε := child.elim .nothing fun child =>
      if 0 ≤ lastbn ∧ nb ≠ 0 then child blks (lbn + 1 - i * factor) nb (lastbn % factor)
      else .nothing
    ((read.andThen write).andThen whole).andThen part

/-- `ffs_indirtrunc`: release what is below the indirect block `dbn` behind `lastbn`. -/
def ffsIndirtrunc {ε : Type} (g : Geometry) (io : TruncIo ε) :
    ℕ → PtrBlocks → ℤ → ℤ → ℤ → Released ε
  | 0 => indirtruncBody g io 0 none
  | level + 1 => indirtruncBody g io (level + 1) (some (ffsIndirtrunc g io level))

/-- The fragments of a whole block. -/
def blockFragments (g : Geometry) (bn : ℤ) : List ℤ := pieceFrags bn g.frag

section Ops

variable {g : Geometry} {ops ops' pre : List TruncOp} {blks : PtrBlocks} {x : ℤ}

@[simp] theorem writeOps_nil : writeOps [] blks = blks := rfl

@[simp] theorem writeOps_nothing {ε : Type} :
    writeOps (Released.nothing : Released ε).ops blks = blks := rfl

@[simp] theorem andThen_nothing {ε : Type} (r : Released ε) : r.andThen .nothing = r := by
  obtain ⟨ops, count, err⟩ := r
  show Released.mk (ops ++ []) count (none.or err) = _
  rw [List.append_nil, Option.none_or]

theorem writeOps_append : writeOps (ops ++ ops') blks = writeOps ops' (writeOps ops blks) :=
  List.foldl_append

@[simp] theorem given_nil : given g [] x = 0 := rfl

theorem given_append : given g (ops ++ ops') x = given g ops x + given g ops' x := by
  rw [given, List.flatMap_append, List.count_append]
  rfl

/-- What a part of the operations releases, all of them do. -/
theorem given_le (h : pre <+: ops) : given g pre x ≤ given g ops x := by
  obtain ⟨rest, rfl⟩ := h
  rw [given_append]
  exact Nat.le_add_right _ _

theorem numfrags_bsize (g : Geometry) : g.bsize / g.fsize = g.frag := by
  rw [g.bsize_eq, Nat.mul_div_cancel _ g.fsize_pos]

theorem given_blkfree (bn : ℤ) (size : ℕ) :
    given g [.blkfree bn size] x = (pieceFrags bn (size / g.fsize)).count x := by
  rw [given, List.flatMap_singleton]
  rfl

/-- A part of the operations up to some point ends in the first list, or in the second one. -/
theorem initial_of_append (h : pre <+: ops ++ ops') :
    pre <+: ops ∨ ∃ c, c <+: ops' ∧ pre = ops ++ c := by
  rcases Nat.le_total pre.length ops.length with hle | hle
  · exact .inl (List.prefix_of_prefix_length_le h (List.prefix_append ops ops') hle)
  · obtain ⟨c, rfl⟩ := List.prefix_of_prefix_length_le (List.prefix_append ops ops') h hle
    exact .inr ⟨c, (List.prefix_append_right_inj ops).mp h, rfl⟩

/-- Operations that write no pointer. -/
def NoWrite (ops : List TruncOp) : Prop := ∀ op ∈ ops, ∀ blks, op.write blks = blks

theorem NoWrite.writeOps (h : NoWrite ops) : writeOps ops blks = blks := by
  induction ops with
  | nil => rfl
  | cons op ops ih =>
    rw [Ddfs.writeOps, List.foldl_cons, h op List.mem_cons_self]
    exact ih fun q hq => h q (List.mem_cons_of_mem _ hq)

theorem NoWrite.append (h : NoWrite ops) (h' : NoWrite ops') : NoWrite (ops ++ ops') := by
  intro op hop
  rcases List.mem_append.mp hop with hop | hop
  · exact h op hop
  · exact h' op hop

theorem NoWrite.initial (h : NoWrite ops) (hpre : pre <+: ops) : NoWrite pre :=
  fun op hop => h op (hpre.subset hop)

theorem noWrite_blkfree (bn : ℤ) (size : ℕ) : NoWrite [.blkfree bn size] := by
  intro op hop
  rw [List.mem_singleton.mp hop]
  exact fun _ => rfl

theorem noWrite_bread (lbn dbn : ℤ) : NoWrite [.bread lbn dbn] := by
  intro op hop
  rw [List.mem_singleton.mp hop]
  exact fun _ => rfl

end Ops

section Whole

variable {ε : Type} {g : Geometry} {io : TruncIo ε} {blks : PtrBlocks} {lbn dbn : ℤ} {x : ℤ}
  {level : ℕ}

/-- `uses` for the blocks of a file system. -/
abbrev fragUses (g : Geometry) (blks : PtrBlocks) (h : ℕ) (p x : ℤ) : ℕ :=
  uses g.nindir (blockFragments g) blks h p x

/-- A part releases at most `n` times a fragment and writes nothing, and exactly `n` times if all
reads succeed. -/
structure GivesAll (g : Geometry) (io : TruncIo ε) (r : Released ε) (x : ℤ) (n : ℕ) : Prop where
  noWrite : NoWrite r.ops
  le : given g r.ops x ≤ n
  eq : (∀ lbn, io.bread lbn = none) → given g r.ops x = n

theorem GivesAll.nothing : GivesAll g io (.nothing) x 0 :=
  ⟨fun _ h => absurd h List.not_mem_nil, Nat.le_refl _, fun _ => rfl⟩

theorem GivesAll.andThen {r r' : Released ε} {n n' : ℕ} (h : GivesAll g io r x n)
    (h' : GivesAll g io r' x n') : GivesAll g io (r.andThen r') x (n + n') := by
  refine ⟨h.noWrite.append h'.noWrite, ?_, fun hread => ?_⟩
  · rw [Released.andThen, given_append]
    exact Nat.add_le_add h.le h'.le
  · rw [Released.andThen, given_append, h.eq hread, h'.eq hread]

theorem GivesAll.size (bn : ℤ) (size : ℕ) :
    GivesAll g io (blkfreeCounted bn size) x ((pieceFrags bn (size / g.fsize)).count x) :=
  ⟨noWrite_blkfree _ _, Nat.le_of_eq (given_blkfree bn size), fun _ => given_blkfree bn size⟩

theorem GivesAll.blkfree (bn : ℤ) :
    GivesAll g io (blkfreeCounted bn g.bsize) x ((blockFragments g bn).count x) := by
  rw [blockFragments, ← numfrags_bsize]
  exact GivesAll.size bn g.bsize

/-- The loop releases what is under the pointers that it comes to, if `child` releases what is below
the block of a pointer. -/
theorem indirLoop_givesAll {child : PtrBlocks → ℤ → ℤ → Released ε} {bap : ℕ → ℤ}
    {factor last : ℤ} {k : ℕ} (hlast : last + 1 = k)
    (hchild : ∀ nlbn nb, nb ≠ 0 → ∃ n, n + (blockFragments g nb).count x =
      fragUses g blks level nb x ∧ GivesAll g io (child blks nlbn nb) x n) (n : ℕ) (nlbn : ℤ) :
    GivesAll g io (indirLoop g child bap factor last n nlbn blks) x
      (∑ j ∈ Finset.range n, fragUses g blks level (bap (k + j)) x) := by
  induction n generalizing nlbn with
  | zero => exact GivesAll.nothing
  | succ n ih =>
    have hidx : (last + (n + 1 : ℕ)).toNat = k + n := by omega
    rw [indirLoop, hidx, Finset.sum_range_succ]
    by_cases hnb : bap (k + n) = 0
    · simp only [hnb, if_true, fragUses, uses_hole, Nat.add_zero]
      exact ih _
    · simp only [hnb, if_false]
      obtain ⟨c, hc, hgives⟩ := hchild nlbn (bap (k + n)) hnb
      have hfirst := hgives.andThen (GivesAll.blkfree (bap (k + n)))
      rw [hfirst.noWrite.writeOps, ← hc, Nat.add_comm (∑ j ∈ _, _)]
      exact hfirst.andThen (ih _)

/-- The body of `ffs_indirtrunc` with `lastbn` -1. -/
theorem indirtruncBody_givesAll {child : Option (PtrBlocks → ℤ → ℤ → ℤ → Released ε)}
    (hchild : ∀ nlbn nb, nb ≠ 0 → ∃ n, n + (blockFragments g nb).count x =
      fragUses g blks level nb x ∧ GivesAll g io
        (child.elim .nothing fun child => child blks nlbn nb (-1)) x n) :
    GivesAll g io (indirtruncBody g io level child blks lbn dbn (-1)) x
      (∑ j ∈ Finset.range g.nindir, fragUses g blks level (blks dbn j) x) := by
  have hread : NoWrite [TruncOp.bread lbn dbn] := noWrite_bread lbn dbn
  have hn : ((g.nindir : ℤ) - 1 - -1).toNat = g.nindir := by omega
  have hloop : GivesAll g io (indirLoop g (fun blks nlbn nb =>
      child.elim .nothing fun child => child blks nlbn nb (-1)) (blks dbn)
      ((g.nindir : ℤ) ^ level) (-1) g.nindir
      (lbn + 1 - ((g.nindir : ℤ) - 1) * (g.nindir : ℤ) ^ level) blks) x
      (∑ j ∈ Finset.range g.nindir, fragUses g blks level (blks dbn (0 + j)) x) :=
    indirLoop_givesAll (by omega) hchild _ _
  simp only [Nat.zero_add] at hloop
  unfold indirtruncBody
  cases hio : io.bread lbn with
  | some e =>
    refine ⟨hread, ?_, fun h => ?_⟩
    · exact Nat.zero_le _
    · rw [h lbn] at hio
      cases hio
  | none =>
    have hfirst : GivesAll g io (⟨[.bread lbn dbn], 0, none⟩ : Released ε) x 0 :=
      ⟨hread, Nat.le_refl _, fun _ => rfl⟩
    have hall := ((hfirst.andThen GivesAll.nothing).andThen hloop).andThen GivesAll.nothing
    simp only [Nat.zero_add, Nat.add_zero] at hall
    cases child with
    | none => simpa [hn] using hall
    | some child => simpa [hn] using hall

/-- With `lastbn` -1 everything below the block is released, and nothing is written. -/
theorem ffsIndirtrunc_givesAll (level : ℕ) (lbn dbn : ℤ) :
    GivesAll g io (ffsIndirtrunc g io level blks lbn dbn (-1)) x
      (∑ j ∈ Finset.range g.nindir, fragUses g blks level (blks dbn j) x) := by
  induction level generalizing lbn dbn with
  | zero =>
    refine indirtruncBody_givesAll fun nlbn nb hnb => ⟨0, ?_, GivesAll.nothing⟩
    rw [Nat.zero_add, fragUses, uses_zero hnb]
  | succ level ih =>
    refine indirtruncBody_givesAll fun nlbn nb hnb => ⟨_, ?_, ih nlbn nb⟩
    rw [fragUses, uses_succ hnb, Nat.add_comm]

end Whole

section Tally

variable {ε : Type} {g : Geometry} {io : TruncIo ε} {r r' : Released ε}

/-- `blocksreleased` is the number of the sectors that are released. -/
def Tallied (g : Geometry) (r : Released ε) : Prop :=
  r.count = (r.ops.flatMap (TruncOp.frags g)).length * btodb g.fsize

theorem Tallied.nothing : Tallied g (.nothing : Released ε) := (Nat.zero_mul _).symm

theorem Tallied.andThen (h : Tallied g r) (h' : Tallied g r') : Tallied g (r.andThen r') := by
  unfold Tallied at *
  rw [Released.andThen, h, h', List.flatMap_append, List.length_append, Nat.add_mul]

theorem Tallied.blkfree (bn : ℤ) {size : ℕ} (h : g.fsize ∣ size) :
    Tallied g (blkfreeCounted bn size : Released ε) := by
  obtain ⟨a, rfl⟩ := h
  have hsectors := g.fsize_eq
  unfold Tallied blkfreeCounted btodb
  rw [List.flatMap_singleton, TruncOp.frags, pieceFrags, List.length_map, List.length_range,
    Nat.mul_div_cancel_left _ g.fsize_pos]
  generalize g.fsize / 512 = n at *
  show g.fsize * a / 512 = a * n
  rw [hsectors, Nat.mul_right_comm, Nat.mul_div_cancel _ (by decide), Nat.mul_comm]

theorem fsize_dvd_bsize (g : Geometry) : g.fsize ∣ g.bsize :=
  ⟨g.frag, by rw [g.bsize_eq, Nat.mul_comm]⟩

theorem indirLoop_tallied {child : PtrBlocks → ℤ → ℤ → Released ε} {bap : ℕ → ℤ} {factor last : ℤ}
    (hchild : ∀ blks nlbn nb, Tallied g (child blks nlbn nb)) (n : ℕ) (nlbn : ℤ)
    (blks : PtrBlocks) : Tallied g (indirLoop g child bap factor last n nlbn blks) := by
  induction n generalizing nlbn blks with
  | zero => exact Tallied.nothing
  | succ n ih =>
    rw [indirLoop]
    split
    · exact ih _ _
    · exact ((hchild _ _ _).andThen (Tallied.blkfree _ (fsize_dvd_bsize g))).andThen (ih _ _)

theorem indirtruncBody_tallied {child : Option (PtrBlocks → ℤ → ℤ → ℤ → Released ε)} {level : ℕ}
    (hchild : ∀ f, child = some f → ∀ blks lbn dbn lastbn, Tallied g (f blks lbn dbn lastbn))
    (blks : PtrBlocks) (lbn dbn lastbn : ℤ) :
    Tallied g (indirtruncBody g io level child blks lbn dbn lastbn) := by
  have hbread : ∀ e : Option ε, Tallied g ⟨[.bread lbn dbn], 0, e⟩ := fun _ =>
    (Nat.zero_mul _).symm
  have hbwrite : ∀ bap (e : Option ε), Tallied g ⟨[.bwrite dbn bap], 0, e⟩ := fun _ _ =>
    (Nat.zero_mul _).symm
  have hcalls : ∀ c : (PtrBlocks → ℤ → ℤ → ℤ → Released ε) → Released ε,
      (∀ f, child = some f → Tallied g (c f)) → Tallied g (child.elim .nothing c) := by
    intro c hc
    cases hf : child with
    | none => exact Tallied.nothing
    | some f => exact hc f hf
  unfold indirtruncBody
  dsimp only
  split
  · exact hbread _
  · refine Tallied.andThen (Tallied.andThen (Tallied.andThen (hbread _) ?_) ?_) ?_
    · split
      · exact hbwrite _ _
      · exact Tallied.nothing
    · exact indirLoop_tallied (fun _ _ _ => hcalls _ fun f hf => hchild f hf _ _ _ _) _ _ _
    · refine hcalls _ fun f hf => ?_
      split_ifs
      all_goals first | exact hchild f hf _ _ _ _ | exact Tallied.nothing

theorem ffsIndirtrunc_tallied (level : ℕ) (blks : PtrBlocks) (lbn dbn lastbn : ℤ) :
    Tallied g (ffsIndirtrunc g io level blks lbn dbn lastbn) := by
  induction level generalizing blks lbn dbn lastbn with
  | zero => exact indirtruncBody_tallied (fun f hf => by cases hf) blks lbn dbn lastbn
  | succ level ih =>
    refine indirtruncBody_tallied (fun f hf => ?_) blks lbn dbn lastbn
    obtain rfl := Option.some.inj hf
    exact ih

end Tally

section Part

variable {ε : Type} {g : Geometry} {io : TruncIo ε} {v w : PtrBlocks} {lbn : ℤ} {x : ℤ}
  {h L : ℕ} {p : ℤ} {r read write whole part : Released ε}

/-- What a part does to the tree under the pointer `p` of height `h`, of which the data blocks up to
`L` are kept. -/
structure CutsTo (g : Geometry) (io : TruncIo ε) (r : Released ε) (v : PtrBlocks) (h : ℕ) (p : ℤ)
    (L : ℕ) : Prop where
  /-- Only its own blocks are written. -/
  frame : ∀ pre, pre <+: r.ops → ∀ q, q ∉ nodes g.nindir v h p → writeOps pre v q = v q
  /-- At any moment the pointers name a fragment no more often, with its releases, than at first. -/
  bound : ∀ pre, pre <+: r.ops → ∀ x,
    fragUses g (writeOps pre v) h p x + given g pre x ≤ fragUses g v h p x
  /-- In the end a fragment is named, or was released, as often as it was named at first. -/
  exact : (∀ lbn, io.bread lbn = none) → ∀ x,
    fragUses g (writeOps r.ops v) h p x + given g r.ops x = fragUses g v h p x
  /-- The data blocks that are left. -/
  leaves : (∀ lbn, io.bread lbn = none) → ∀ k, k < g.nindir ^ h →
    leaf g.nindir (writeOps r.ops v) h p k = if k ≤ L then leaf g.nindir v h p k else 0

theorem nindir_pos (g : Geometry) : 0 < g.nindir := by
  have hle : 2 ^ 12 ≤ g.bsize := Nat.pow_le_pow_right (by decide) g.le_bshift
  unfold Geometry.nindir
  omega

/-- Nothing is to be done for a data block, or a hole. -/
theorem CutsTo.nothing (hp : h = 0 ∨ p = 0) : CutsTo g io (.nothing : Released ε) v h p L := by
  have hnil : ∀ pre, pre <+: (Released.nothing : Released ε).ops → pre = [] := fun pre hpre =>
    List.prefix_nil.mp hpre
  refine ⟨fun pre hpre q _ => ?_, fun pre hpre x => ?_, fun _ x => rfl, fun _ k hk => ?_⟩
  · rw [hnil pre hpre]
    rfl
  · rw [hnil pre hpre]
    exact Nat.le_refl _
  · rcases hp with rfl | rfl
    · rw [Nat.pow_zero] at hk
      rw [if_pos (by omega)]
      rfl
    · rw [leaf_hole, leaf_hole, ite_self]

/-- Nothing is done if the block cannot be read. -/
theorem CutsTo.unread {e : ε} (hio : io.bread lbn = some e) :
    CutsTo g io (⟨[.bread lbn p], 0, some e⟩ : Released ε) v h p L := by
  have hsame : ∀ pre, pre <+: [TruncOp.bread lbn p] →
      writeOps pre v = v ∧ ∀ x, given g pre x = 0 := fun pre hpre =>
    ⟨((noWrite_bread lbn p).initial hpre).writeOps,
      fun x => Nat.le_zero.mp (given_le (x := x) hpre)⟩
  have hbad : ¬ ∀ lbn, io.bread lbn = none := by
    intro hall
    rw [hall lbn] at hio
    cases hio
  refine ⟨fun pre hpre q _ => ?_, fun pre hpre x => ?_, fun hall => absurd hall hbad,
    fun hall => absurd hall hbad⟩
  · rw [(hsame pre hpre).1]
  · rw [(hsame pre hpre).1, (hsame pre hpre).2, Nat.add_zero]

section Parts

variable {c : List TruncOp} (hread : NoWrite read.ops) (hgiven : ∀ x, given g read.ops x = 0)
  (hwrite : ∃ bap, write.ops = [.bwrite p bap] ∧ Function.update v p bap = w)

include hread hgiven hwrite

theorem write_run (c : List TruncOp) : writeOps (read.ops ++ write.ops ++ c) v = writeOps c w ∧
    given g (read.ops ++ write.ops ++ c) x = given g c x := by
  obtain ⟨bap, hops, hbap⟩ := hwrite
  constructor
  · rw [writeOps_append, writeOps_append, hread.writeOps, hops]
    show writeOps c (Function.update v p bap) = _
    rw [hbap]
  · rw [given_append, given_append, hgiven, hops]
    show 0 + 0 + _ = _
    omega

variable (hwhole : NoWrite whole.ops)
include hwhole

theorem parts_run (c : List TruncOp) :
    writeOps (read.ops ++ write.ops ++ whole.ops ++ c) v = writeOps c w ∧
      given g (read.ops ++ write.ops ++ whole.ops ++ c) x = given g whole.ops x + given g c x := by
  obtain ⟨hrun, hgive⟩ := write_run (x := x) hread hgiven hwrite (whole.ops ++ c)
  rw [List.append_assoc]
  exact ⟨by rw [hrun, writeOps_append, hwhole.writeOps], by rw [hgive, given_append]⟩

/-- Up to some point `ffs_indirtrunc` has written nothing and released nothing, or it has written
the block and released a part of what it releases as a whole, or all of it and a part of the
rest. -/
theorem parts_initial (hc : c <+: (((read.andThen write).andThen whole).andThen part).ops) :
    (writeOps c v = v ∧ ∀ x, given g c x = 0) ∨
      (∃ d, d <+: whole.ops ∧ writeOps c v = w ∧ ∀ x, given g c x = given g d x) ∨
      ∃ d, d <+: part.ops ∧ writeOps c v = writeOps d w ∧
        ∀ x, given g c x = given g whole.ops x + given g d x := by
  have hrun := fun d x => write_run (x := x) hread hgiven hwrite d
  rcases initial_of_append hc with hc | ⟨d, hd, rfl⟩
  · rcases initial_of_append hc with hc | ⟨d, hd, rfl⟩
    · rcases initial_of_append hc with hc | ⟨d, hd, rfl⟩
      · refine .inl ⟨(hread.initial hc).writeOps, fun x => ?_⟩
        exact Nat.le_zero.mp ((given_le hc).trans_eq (hgiven x))
      · obtain ⟨bap, hops, -⟩ := hwrite
        rw [hops] at hd hrun
        rcases List.prefix_cons_iff.mp hd with rfl | ⟨d', rfl, hd'⟩
        · refine .inl ⟨by rw [List.append_nil, hread.writeOps], fun x => ?_⟩
          rw [List.append_nil, hgiven]
        · obtain rfl := List.prefix_nil.mp hd'
          exact .inr (.inl ⟨[], List.nil_prefix, (by simpa using (hrun [] 0).1),
            fun x => by simpa using (hrun [] x).2⟩)
    · refine .inr (.inl ⟨d, hd, ?_, fun x => (hrun d x).2⟩)
      exact (hrun d 0).1.trans (hwhole.initial hd).writeOps
  · have hboth := fun x => parts_run (x := x) hread hgiven hwrite hwhole d
    exact .inr (.inr ⟨d, hd, (hboth 0).1, fun x => (hboth x).2⟩)

end Parts

/-- The parts of `ffs_indirtrunc` for a block whose first `L / NINDIR ^ h + 1` pointers are kept. -/
theorem CutsTo.node (hp : p ≠ 0) (hnodup : (nodes g.nindir v (h + 1) p).Nodup)
    (hL : L < g.nindir ^ (h + 1)) (hw : w = cut v p (L / g.nindir ^ h + 1))
    (hread : NoWrite read.ops) (hgiven : ∀ x, given g read.ops x = 0)
    (hwrite : ∃ bap, write.ops = [.bwrite p bap] ∧ Function.update v p bap = w)
    (hwhole : ∀ x, GivesAll g io whole x (∑ j ∈ Finset.range (g.nindir - (L / g.nindir ^ h + 1)),
      fragUses g v h (v p (L / g.nindir ^ h + 1 + j)) x))
    (hpart : CutsTo g io part w h (v p (L / g.nindir ^ h)) (L % g.nindir ^ h)) :
    CutsTo g io (((read.andThen write).andThen whole).andThen part) v (h + 1) p L := by
  have hF : 0 < g.nindir ^ h := Nat.pow_pos (nindir_pos g)
  have hdiv : L / g.nindir ^ h < g.nindir :=
    Nat.div_lt_of_lt_mul (by rwa [Nat.pow_succ] at hL)
  obtain ⟨hchild, hdisj⟩ := children_of_nodup hp hnodup
  have hout : ∀ i, i < g.nindir → p ∉ nodes g.nindir v h (v p i) := fun i hi => (hchild i hi).2
  generalize hm : L / g.nindir ^ h = m at *
  have hcut : ∀ q, q ≠ p → w q = v q := fun q hq => by rw [hw, cut_of_ne hq]
  have hself : ∀ i, w p i = if i < m + 1 then v p i else 0 := fun i => by rw [hw, cut_self]
  -- the trees under the pointers that are kept are as before
  have hagree : ∀ i, i < g.nindir → ∀ q ∈ nodes g.nindir v h (v p i), w q = v q :=
    fun i hi q hq => hcut q (by rintro rfl; exact hout i hi hq)
  have hnodes : nodes g.nindir w h (v p m) = nodes g.nindir v h (v p m) :=
    nodes_congr (hagree m hdiv)
  have hall : ∀ x, writeOps (((read.andThen write).andThen whole).andThen part).ops v =
      writeOps part.ops w ∧ given g (((read.andThen write).andThen whole).andThen part).ops x =
        given g whole.ops x + given g part.ops x := fun x =>
    parts_run hread hgiven hwrite (hwhole 0).noWrite part.ops
  -- what is under the block before, behind the write, and behind a part of the recursive call
  have hbefore : ∀ x, fragUses g v (h + 1) p x = fragUses g w (h + 1) p x +
      ∑ j ∈ Finset.range (g.nindir - (m + 1)), fragUses g v h (v p (m + 1 + j)) x := by
    intro x
    rw [hw, fragUses, fragUses, uses_cut hp hout hdiv, uses_succ hp, Nat.add_assoc,
      ← Finset.sum_range_add, Nat.add_sub_cancel' (Nat.succ_le_of_lt hdiv)]
  have hframe : ∀ c, c <+: part.ops → writeOps c w p = w p ∧
      ∀ i, i < g.nindir → i ≠ m → ∀ q ∈ nodes g.nindir w h (w p i), writeOps c w q = w q := by
    intro c hc
    refine ⟨hpart.frame c hc p ?_, fun i hi hne q hq => hpart.frame c hc q ?_⟩
    · rw [hnodes]
      exact hout m hdiv
    · rw [hself] at hq
      rw [hnodes]
      split at hq
      · rw [nodes_congr (hagree i hi)] at hq
        exact hdisj i m hi hdiv hne q hq
      · rw [nodes_hole] at hq
        exact absurd hq List.not_mem_nil
  have hwm : w p m = v p m := by rw [hself, if_pos (Nat.lt_succ_self m)]
  have hreplace : ∀ c, c <+: part.ops → ∀ x,
      fragUses g (writeOps c w) (h + 1) p x + fragUses g w h (v p m) x =
        fragUses g w (h + 1) p x + fragUses g (writeOps c w) h (v p m) x := by
    intro c hc x
    obtain ⟨hs, ho⟩ := hframe c hc
    have := uses_replace (e := blockFragments g) (x := x) hp hs ho hdiv
    rwa [hwm] at this
  refine ⟨fun pre hpre q hq => ?_, fun pre hpre x => ?_, fun hio x => ?_, fun hio k hk => ?_⟩
  · have hqp : q ≠ p := by
      rintro rfl
      exact hq (mem_nodes_self hp)
    have hcases := parts_initial hread hgiven hwrite (hwhole 0).noWrite hpre
    rcases hcases with ⟨hrun', -⟩ | ⟨c, -, hrun', -⟩ | ⟨c, hc, hrun', -⟩
    · rw [hrun']
    · rw [hrun', hcut q hqp]
    · rw [hrun', hpart.frame c hc q ?_, hcut q hqp]
      rw [hnodes]
      exact fun hmem => hq (mem_nodes_of_child hdiv hmem hp)
  · have hle := (hwhole x).le
    have hcases := parts_initial hread hgiven hwrite (hwhole 0).noWrite hpre
    rcases hcases with ⟨hrun', hg⟩ | ⟨c, hc, hrun', hg⟩ | ⟨c, hc, hrun', hg⟩
    · rw [hrun', hg, Nat.add_zero]
    · have := given_le (g := g) (x := x) hc
      rw [hrun', hg, hbefore]
      omega
    · have hb := hpart.bound c hc x
      have hr := hreplace c hc x
      rw [hrun', hg, hbefore]
      omega
  · have hb := hpart.exact hio x
    have hr := hreplace part.ops (List.prefix_refl _) x
    have he := (hwhole x).eq hio
    rw [(hall x).1, (hall x).2, hbefore]
    omega
  · have hl := hpart.leaves hio (k % g.nindir ^ h) (Nat.mod_lt _ hF)
    obtain ⟨hs, ho⟩ := hframe part.ops (List.prefix_refl _)
    rw [(hall 0).1, leaf_replace hp hs ho hk, hwm, hl, hw,
      leaf_cut hp hout hk, ← hw, leaf_congr (hagree m hdiv) (Nat.mod_lt _ hF)]
    have hle : k ≤ L ↔ k / g.nindir ^ h < m ∨
        k / g.nindir ^ h = m ∧ k % g.nindir ^ h ≤ L % g.nindir ^ h := by
      rw [← hm]
      exact le_iff_div_mod
    rcases Nat.lt_trichotomy (k / g.nindir ^ h) m with hlt | heq | hgt
    · rw [if_neg hlt.ne, if_pos (Nat.lt_succ_of_lt hlt), if_pos (hle.mpr (.inl hlt))]
    · have hlow : k ≤ L ↔ k % g.nindir ^ h ≤ L % g.nindir ^ h := by
        rw [hle, heq]
        simp
      rw [if_pos heq, leaf, if_neg hp, heq]
      simp only [hlow]
    · rw [if_neg hgt.ne', if_neg (Nat.not_lt.mpr hgt), if_neg fun hkL => ?_]
      rcases hle.mp hkL with hlt | ⟨heq, -⟩ <;> omega

/-- The body of `ffs_indirtrunc` with the last block `L` to keep, if the calls below it release what
they should. -/
theorem indirtruncBody_cutsTo {child : Option (PtrBlocks → ℤ → ℤ → ℤ → Released ε)} (hp : p ≠ 0)
    (hnodup : (nodes g.nindir v (h + 1) p).Nodup) (hL : L < g.nindir ^ (h + 1))
    (hwhole : ∀ x w nlbn nb, nb ≠ 0 → ∃ n, n + (blockFragments g nb).count x = fragUses g w h nb x ∧
      GivesAll g io (child.elim .nothing fun child => child w nlbn nb (-1)) x n)
    (hpart : ∀ w nlbn nb M, (nodes g.nindir w h nb).Nodup → M < g.nindir ^ h →
      CutsTo g io (child.elim .nothing fun child =>
        if nb ≠ 0 then child w nlbn nb (M : ℕ) else .nothing) w h nb M) :
    CutsTo g io (indirtruncBody g io h child v lbn p L) v (h + 1) p L := by
  have hF : 0 < g.nindir ^ h := Nat.pow_pos (nindir_pos g)
  have hdiv : L / g.nindir ^ h < g.nindir :=
    Nat.div_lt_of_lt_mul (by rwa [Nat.pow_succ] at hL)
  have hlast : (if 0 < (L : ℤ) then (L : ℤ) / (g.nindir : ℤ) ^ h else (L : ℤ)) =
      (L / g.nindir ^ h : ℕ) := by
    split
    · push_cast
      rfl
    · obtain rfl : L = 0 := by omega
      rw [Nat.zero_div]
  have hmod : (L : ℤ) % (g.nindir : ℤ) ^ h = (L % g.nindir ^ h : ℕ) := by
    push_cast
    rfl
  obtain ⟨hchild, -⟩ := children_of_nodup hp hnodup
  unfold indirtruncBody
  dsimp only
  rw [hlast, hmod]
  generalize hm : L / g.nindir ^ h = m at *
  have hlen : ((g.nindir : ℤ) - 1 - (m : ℕ)).toNat = g.nindir - (m + 1) := by omega
  have hmin : (min ((m : ℕ) : ℤ) ((g.nindir : ℤ) - 1)).toNat = m := by omega
  rw [hlen, hmin]
  cases hio : io.bread lbn with
  | some e => exact CutsTo.unread hio
  | none =>
    have hne : (L : ℤ) ≠ -1 := by omega
    have hnonneg : (0 : ℤ) ≤ L := Int.natCast_nonneg L
    have hbap : (fun i : ℕ => if ((m : ℕ) : ℤ) < i then 0 else v p i) =
        fun i => if i < m + 1 then v p i else 0 := by
      funext i
      by_cases hi : i < m + 1
      · rw [if_pos hi, if_neg (by omega)]
      · rw [if_neg hi, if_pos (by omega)]
    simp only [Option.isSome_none, Bool.false_eq_true, if_false, if_pos hne, hbap]
    have hw : writeOps [.bwrite p fun i => if i < m + 1 then v p i else 0] v = cut v p (m + 1) :=
      rfl
    rw [hw]
    -- the trees under the pointers are the same behind the write
    have hagree : ∀ i, i < g.nindir → ∀ q ∈ nodes g.nindir v h (v p i),
        cut v p (m + 1) q = v q := by
      intro i hi q hq
      refine cut_of_ne ?_
      rintro rfl
      exact (hchild i hi).2 hq
    have hall : ∀ x, GivesAll g io (indirLoop g (fun blks nlbn nb =>
        child.elim .nothing fun child => child blks nlbn nb (-1)) (v p)
        ((g.nindir : ℤ) ^ h) (m : ℕ) (g.nindir - (m + 1))
        (lbn + 1 - ((g.nindir : ℤ) - 1) * (g.nindir : ℤ) ^ h) (cut v p (m + 1))) x
        (∑ j ∈ Finset.range (g.nindir - (m + 1)),
          fragUses g (cut v p (m + 1)) h (v p (m + 1 + j)) x) := fun x =>
      indirLoop_givesAll (by omega) (fun nlbn nb hnb => hwhole x _ nlbn nb hnb) _ _
    rw [(hall 0).noWrite.writeOps]
    refine CutsTo.node hp hnodup hL (by rw [hm]) (noWrite_bread lbn p) (fun _ => rfl)
      ⟨_, rfl, hw⟩ (fun x => ?_) ?_
    · rw [hm]
      have hsum : ∑ j ∈ Finset.range (g.nindir - (m + 1)),
          fragUses g v h (v p (m + 1 + j)) x = ∑ j ∈ Finset.range (g.nindir - (m + 1)),
            fragUses g (cut v p (m + 1)) h (v p (m + 1 + j)) x := by
        refine Finset.sum_congr rfl fun j hj => (uses_congr (hagree _ ?_)).symm
        have := Finset.mem_range.mp hj
        omega
      rw [hsum]
      exact hall x
    · have hnodes : (nodes g.nindir (cut v p (m + 1)) h (v p m)).Nodup := by
        rw [nodes_congr (hagree m hdiv)]
        exact (hchild m hdiv).1
      have hcall := hpart (cut v p (m + 1))
        (lbn + 1 - min ((m : ℕ) : ℤ) ((g.nindir : ℤ) - 1) * (g.nindir : ℤ) ^ h) (v p m)
        (L % g.nindir ^ h) hnodes (Nat.mod_lt _ hF)
      rw [hm]
      simpa only [hnonneg, true_and] using hcall

/-- With a last block to keep, everything behind it is released. -/
theorem ffsIndirtrunc_cutsTo (level : ℕ) (v : PtrBlocks) (lbn p : ℤ) (hp : p ≠ 0)
    (hnodup : (nodes g.nindir v (level + 1) p).Nodup) (hL : L < g.nindir ^ (level + 1)) :
    CutsTo g io (ffsIndirtrunc g io level v lbn p L) v (level + 1) p L := by
  induction level generalizing v lbn p L with
  | zero =>
    refine indirtruncBody_cutsTo hp hnodup hL (fun x w nlbn nb hnb => ⟨0, ?_, GivesAll.nothing⟩)
      fun w nlbn nb M _ _ => CutsTo.nothing (.inl rfl)
    rw [Nat.zero_add, fragUses, uses_zero hnb]
  | succ level ih =>
    refine indirtruncBody_cutsTo hp hnodup hL
      (fun x w nlbn nb hnb => ⟨_, ?_, ffsIndirtrunc_givesAll level nlbn nb⟩)
      fun w nlbn nb M hnodup hM => ?_
    · rw [fragUses, uses_succ hnb, Nat.add_comm]
    · by_cases hnb : nb = 0
      · rw [Option.elim_some, if_neg (not_not.mpr hnb)]
        exact CutsTo.nothing (.inr hnb)
      · rw [Option.elim_some, if_pos hnb]
        exact ih w nlbn nb hnb hnodup hM

end Part

end EmbeddedOs.Ddfs
