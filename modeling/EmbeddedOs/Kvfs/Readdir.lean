import EmbeddedOs.Kvfs.Steps
import EmbeddedOs.Kvfs.KeyNames
import EmbeddedOs.Lib.Paging

/-!
# Reading the directory

`kvfs_readdir_one`, `kvfs_dirent_reclen` and `kvfs_readdir` of `kvfs_vnops.c`. An offset into
the directory is a number of bytes of the listing that the table gives at the time of the call:
`.`, `..`, and one entry for each slot that is not free. The copy to user space does not fail.
-/

namespace EmbeddedOs.Kvfs

open Lib Lib.Bytes Lib.Paging

/-- `struct dirent`. -/
structure Dirent where
  /-- `d_fileno`. -/
  fileno : ℕ
  /-- `d_off`. -/
  off : ℤ
  /-- `d_reclen`. -/
  reclen : ℕ
  /-- `d_type`. -/
  type : UInt8
  /-- `d_namlen`. -/
  namlen : ℕ
  /-- `d_name`. -/
  name : Name
  deriving DecidableEq

/-- `struct uio`, with the entries that were moved to it. -/
structure Uio where
  /-- `uio_offset`. -/
  offset : ℤ
  /-- `uio_resid`. -/
  resid : ℕ
  /-- The entries. -/
  dirents : List Dirent

/-- `DT_DIR`. -/
def dtDir : UInt8 := 4

/-- `DT_REG`. -/
def dtReg : UInt8 := 8

/-- `_GENERIC_DIRLEN`: the fields before `d_name`, the name and its end, in words of 8 bytes. -/
def genericDirlen (namlen : ℕ) : ℕ := (24 + namlen + 1 + 7) / 8 * 8

/-- `kvfs_dirent_reclen`. -/
def kvfsDirentReclen (name : Name) : ℕ := genericDirlen name.length

/-- `kvfs_readdir_one`. -/
def kvfsReaddirOne (uio : Uio) (name : Name) (fileno : ℕ) (type : UInt8) : Uio × Option Errno :=
  let len := name.length
  let reclen := genericDirlen len
  if uio.resid < reclen then (uio, some .EINVAL)
  else
    let dirent : Dirent :=
      { fileno := fileno
        off := uio.offset + reclen
        reclen := reclen
        type := type
        namlen := len
        name := name }
    ({ offset := uio.offset + reclen
       resid := uio.resid - reclen
       dirents := uio.dirents ++ [dirent] }, none)

/-- How `kvfs_readdir` ends: it returns, or goes to `out`. -/
inductive ReaddirEnd
  /-- It returns. -/
  | ret (error : Option Errno)
  /-- It goes to `out` with an error and the size of the last entry. -/
  | out (error : Errno) (reclen : ℕ)

/-- The loop of `kvfs_readdir` over the slots `is`. -/
def kvfsReaddirLoop (s : Fs) : List ℕ → ℕ → Uio → Uio × ReaddirEnd
  | [], _, uio => (uio, .ret none)
  | i :: is, reclens, uio =>
    let ino := 32 * i
    let inode := Inode.ofBytes (get s.disk (s.mp.tableLoc ino) 32)
    if inode.free then kvfsReaddirLoop s is reclens uio
    else
      let name := keyToStr inode.key
      if reclens < uio.offset then kvfsReaddirLoop s is (reclens + kvfsDirentReclen name) uio
      else if uio.offset ≠ reclens then (uio, .ret (some .EINVAL))
      else
        match kvfsReaddirOne uio name ino dtReg with
        | (uio, some error) => (uio, .out error (kvfsDirentReclen name))
        | (uio, none) => kvfsReaddirLoop s is (reclens + kvfsDirentReclen name) uio

/-- The name `.`. -/
def dotName : Name := [46]

/-- The name `..`. -/
def dotdotName : Name := [46, 46]

/-- `kvfs_readdir` from the entry `..` on. -/
def kvfsReaddirDotdot (s : Fs) (uio : Uio) : Uio × ReaddirEnd :=
  let reclens := kvfsDirentReclen dotName
  let slots := List.range s.mp.slots
  if uio.offset ≤ reclens then
    if uio.offset ≠ reclens then (uio, .ret (some .EINVAL))
    else
      match kvfsReaddirOne uio dotdotName kvfsRootIno dtDir with
      | (uio, some error) => (uio, .out error (kvfsDirentReclen dotdotName))
      | (uio, none) => kvfsReaddirLoop s slots (reclens + kvfsDirentReclen dotdotName) uio
  else kvfsReaddirLoop s slots (reclens + kvfsDirentReclen dotdotName) uio

/-- `kvfs_readdir` of the root from the entry `.` on. -/
def kvfsReaddirDot (s : Fs) (uio : Uio) : Uio × ReaddirEnd :=
  if uio.offset = 0 then
    match kvfsReaddirOne uio dotName kvfsRootIno dtDir with
    | (uio, some error) => (uio, .out error (kvfsDirentReclen dotName))
    | (uio, none) => kvfsReaddirDotdot s uio
  else kvfsReaddirDotdot s uio

/-- `kvfs_readdir`; `none` if it follows the null pointer of a vnode without `v_data`. The `bread`
of the whole table is taken to work for every number of slots. -/
def kvfsReaddir (s : Fs) (vp : ℕ) (uio : Uio) : Option (Uio × Option Errno) :=
  match s.vnodes vp with
  | none => none
  | some (.file _) => some (uio, some .ENOTDIR)
  | some .root =>
    if uio.offset < 0 then some (uio, some .EINVAL)
    else
      match kvfsReaddirDot s uio with
      | (uio', .ret error) => some (uio', error)
      | (uio', .out error reclen) =>
        if uio'.resid = uio.resid then some (uio', some error)
        else if uio'.resid < reclen then some (uio', none)
        else some (uio', some error)

/-- Calls of `kvfs_readdir` from `offset` on, each with its own buffer and at the offset where
the one before it ended: the entries and the error of each. -/
def kvfsReaddirs (s : Fs) (vp : ℕ) : ℤ → List ℕ → Option (List (List Dirent × Option Errno))
  | _, [] => some []
  | offset, resid :: resids =>
    match kvfsReaddir s vp ⟨offset, resid, []⟩ with
    | none => none
    | some (uio, error) =>
      (kvfsReaddirs s vp uio.offset resids).map fun calls => (uio.dirents, error) :: calls

/-! ## The listing -/

/-- What an entry of the directory is about. -/
structure Entry where
  /-- The name. -/
  name : Name
  /-- The inode number. -/
  fileno : ℕ
  /-- The type. -/
  type : UInt8
  deriving DecidableEq

/-- The size of an entry. -/
def Entry.reclen (e : Entry) : ℕ := kvfsDirentReclen e.name

/-- The entries as they are returned from `offset` on. -/
def direntsFrom : ℤ → List Entry → List Dirent
  | _, [] => []
  | offset, e :: es =>
    ⟨e.fileno, offset + e.reclen, e.reclen, e.type, e.name.length, e.name⟩ ::
      direntsFrom (offset + e.reclen) es

/-- The entry of a slot. -/
def Fs.fileEntry (s : Fs) (i : ℕ) : Entry := ⟨keyToStr (s.inodeAt i).key, 32 * i, dtReg⟩

/-- The entries of the slots `is` that are not free. -/
def Fs.fileEntries (s : Fs) (is : List ℕ) : List Entry :=
  (is.filter fun i => !(s.inodeAt i).free).map s.fileEntry

/-- The entries of the directory: `.`, `..`, and the files in the order of their slots. -/
def Fs.entries (s : Fs) : List Entry :=
  ⟨dotName, kvfsRootIno, dtDir⟩ :: ⟨dotdotName, kvfsRootIno, dtDir⟩ ::
    s.fileEntries (List.range s.mp.slots)

/-- The offset of an entry. -/
def position : ℕ → ℕ
  | 0 => 0
  | 1 => 32
  | k + 2 => 64 + 72 * k

variable {s : Fs} {vp i k : ℕ} {is : List ℕ} {uio : Uio} {e : Entry} {es es' : List Entry}

/-- The names of keys all have the same size. -/
theorem kvfsDirentReclen_keyToStr (key : Key) : kvfsDirentReclen (keyToStr key) = 72 := by
  unfold kvfsDirentReclen
  rw [length_keyToStr]
  rfl

@[simp] theorem reclen_fileEntry : (s.fileEntry i).reclen = 72 := by
  unfold Entry.reclen Fs.fileEntry
  rw [kvfsDirentReclen_keyToStr]

theorem direntsFrom_append (offset : ℤ) (es es' : List Entry) :
    direntsFrom offset (es ++ es') =
      direntsFrom offset es ++ direntsFrom (offset + width Entry.reclen es) es' := by
  induction es generalizing offset with
  | nil => simp [direntsFrom]
  | cons e es ih =>
    simp only [List.cons_append, direntsFrom, ih, width_cons, Int.natCast_add, add_assoc]

/-! ## What a call returns -/

/-- The result of moving entries to a buffer. -/
def Uio.move (uio : Uio) (es : List Entry) : Uio where
  offset := uio.offset + width Entry.reclen es
  resid := uio.resid - width Entry.reclen es
  dirents := uio.dirents ++ direntsFrom uio.offset es

/-- How a call ends that has the entries `es` left, and `room` bytes for them. -/
def pageEnd : ℕ → List Entry → ReaddirEnd
  | _, [] => .ret none
  | room, e :: es => if room < e.reclen then .out .EINVAL e.reclen else pageEnd (room - e.reclen) es

theorem reclen_pos (e : Entry) : 0 < e.reclen := by
  unfold Entry.reclen kvfsDirentReclen genericDirlen
  omega

@[simp] theorem move_nil : uio.move [] = uio := by
  simp [Uio.move, direntsFrom]

@[simp] theorem move_move : (uio.move es).move es' = uio.move (es ++ es') := by
  simp only [Uio.move, width_append, direntsFrom_append, List.append_assoc, Int.natCast_add,
    add_assoc, Nat.sub_sub]

/-- An entry is moved if it has room. -/
theorem kvfsReaddirOne_eq (uio : Uio) (name : Name) (fileno : ℕ) (type : UInt8) :
    kvfsReaddirOne uio name fileno type =
      if uio.resid < kvfsDirentReclen name then (uio, some .EINVAL)
      else (uio.move [⟨name, fileno, type⟩], none) := by
  unfold kvfsReaddirOne kvfsDirentReclen
  simp only [Uio.move, width_cons, width_nil, Nat.add_zero, direntsFrom, Entry.reclen,
    kvfsDirentReclen]

/-- The loop returns the entries of its slots from the offset on that have room. -/
theorem kvfsReaddirLoop_eq (hwf : s.mp.Wf) (is : List ℕ) (reclens k : ℕ) (uio : Uio)
    (hoffset : uio.offset = reclens + 72 * k) :
    kvfsReaddirLoop s is reclens uio =
      (uio.move (fill Entry.reclen uio.resid ((s.fileEntries is).drop k)),
        pageEnd uio.resid ((s.fileEntries is).drop k)) := by
  induction is generalizing reclens k uio with
  | nil => simp [kvfsReaddirLoop, Fs.fileEntries, pageEnd]
  | cons i is ih =>
    have hinode : Inode.ofBytes (get s.disk (s.mp.tableLoc (32 * i)) 32) = s.inodeAt i := by
      rw [hwf.tableLoc_eq]
      rfl
    unfold kvfsReaddirLoop
    simp only [hinode, kvfsDirentReclen_keyToStr]
    cases hfree : (s.inodeAt i).free with
    | true =>
      have hskip : s.fileEntries (i :: is) = s.fileEntries is := by simp [Fs.fileEntries, hfree]
      rw [if_pos rfl, hskip]
      exact ih _ _ _ hoffset
    | false =>
      have hcons : s.fileEntries (i :: is) = s.fileEntry i :: s.fileEntries is := by
        simp [Fs.fileEntries, hfree]
      rw [if_neg Bool.false_ne_true, hcons]
      cases k with
      | succ k =>
        rw [if_pos (by omega), List.drop_succ_cons]
        exact ih _ _ _ (by omega)
      | zero =>
        have hone := kvfsReaddirOne_eq uio (keyToStr (s.inodeAt i).key) (32 * i) dtReg
        have hentry : (⟨keyToStr (s.inodeAt i).key, 32 * i, dtReg⟩ : Entry) = s.fileEntry i := rfl
        rw [kvfsDirentReclen_keyToStr, hentry] at hone
        rw [if_neg (by omega), if_neg (by omega), List.drop_zero, hone]
        unfold pageEnd
        rw [reclen_fileEntry]
        by_cases hroom : uio.resid < 72
        · rw [if_pos hroom, if_pos hroom, fill_cons_of_lt (by rw [reclen_fileEntry]; exact hroom)]
          simp
        · have hmove : (uio.move [s.fileEntry i]).resid = uio.resid - 72 := by
            simp [Uio.move]
          have hrest := ih (reclens + 72) 0 (uio.move [s.fileEntry i])
            (by simp [Uio.move]; omega)
          rw [hmove, List.drop_zero, move_move] at hrest
          rw [if_neg hroom, if_neg hroom, fill_cons_of_le (by rw [reclen_fileEntry]; omega),
            reclen_fileEntry]
          exact hrest

theorem reclen_dot : kvfsDirentReclen dotName = 32 := rfl

theorem reclen_dotdot : kvfsDirentReclen dotdotName = 32 := rfl

/-- The entry `..` and the files, from an offset behind `.` on. -/
theorem kvfsReaddirDotdot_eq (hwf : s.mp.Wf) (hoffset : uio.offset = position (k + 1)) :
    kvfsReaddirDotdot s uio =
      (uio.move (fill Entry.reclen uio.resid (s.entries.drop (k + 1))),
        pageEnd uio.resid (s.entries.drop (k + 1))) := by
  unfold kvfsReaddirDotdot
  dsimp only
  rw [reclen_dot, reclen_dotdot]
  cases k with
  | succ k =>
    have hpos : position (k + 1 + 1) = 64 + 72 * k := rfl
    rw [if_neg (by omega)]
    exact kvfsReaddirLoop_eq hwf _ _ _ _ (by omega)
  | zero =>
    have hpos : position (0 + 1) = 32 := rfl
    have hdrop : s.entries.drop (0 + 1) =
        ⟨dotdotName, kvfsRootIno, dtDir⟩ :: s.fileEntries (List.range s.mp.slots) := rfl
    have hreclen : Entry.reclen ⟨dotdotName, kvfsRootIno, dtDir⟩ = 32 := rfl
    rw [if_pos (by omega), if_neg (by omega), kvfsReaddirOne_eq, reclen_dotdot, hdrop]
    unfold pageEnd
    rw [hreclen]
    by_cases hroom : uio.resid < 32
    · rw [if_pos hroom, if_pos hroom, fill_cons_of_lt (by rw [hreclen]; exact hroom), move_nil]
    · have hmove : (uio.move [⟨dotdotName, kvfsRootIno, dtDir⟩]).resid = uio.resid - 32 := by
        simp [Uio.move, hreclen]
      have hrest := kvfsReaddirLoop_eq hwf (List.range s.mp.slots) (32 + 32) 0
        (uio.move [⟨dotdotName, kvfsRootIno, dtDir⟩]) (by simp [Uio.move, hreclen]; omega)
      rw [hmove, List.drop_zero, move_move] at hrest
      rw [if_neg hroom, if_neg hroom, fill_cons_of_le (by rw [hreclen]; omega), hreclen]
      exact hrest

/-- All entries from an offset on. -/
theorem kvfsReaddirDot_eq (hwf : s.mp.Wf) (hoffset : uio.offset = position k) :
    kvfsReaddirDot s uio = (uio.move (fill Entry.reclen uio.resid (s.entries.drop k)),
      pageEnd uio.resid (s.entries.drop k)) := by
  unfold kvfsReaddirDot
  cases k with
  | succ k =>
    have hpos : 0 < position (k + 1) := by
      cases k with
      | zero => decide
      | succ k =>
        have heq : position (k + 1 + 1) = 64 + 72 * k := rfl
        omega
    rw [if_neg (by omega)]
    exact kvfsReaddirDotdot_eq hwf hoffset
  | zero =>
    have hpos : position 0 = 0 := rfl
    have hdrop : s.entries.drop 0 = ⟨dotName, kvfsRootIno, dtDir⟩ :: s.entries.drop 1 := rfl
    have hreclen : Entry.reclen ⟨dotName, kvfsRootIno, dtDir⟩ = 32 := rfl
    rw [if_pos (by omega), kvfsReaddirOne_eq, reclen_dot, hdrop]
    unfold pageEnd
    rw [hreclen]
    by_cases hroom : uio.resid < 32
    · rw [if_pos hroom, if_pos hroom, fill_cons_of_lt (by rw [hreclen]; exact hroom), move_nil]
    · have hmove : (uio.move [⟨dotName, kvfsRootIno, dtDir⟩]).resid = uio.resid - 32 := by
        simp [Uio.move, hreclen]
      have hnext : (uio.move [⟨dotName, kvfsRootIno, dtDir⟩]).offset = position (0 + 1) := by
        simp [Uio.move, hreclen, position, hoffset]
      have hrest := kvfsReaddirDotdot_eq hwf hnext
      rw [hmove, move_move] at hrest
      rw [if_neg hroom, if_neg hroom, fill_cons_of_le (by rw [hreclen]; omega), hreclen]
      exact hrest

/-- A call returns when all is moved, and goes to `out` at an entry that has no room. -/
theorem pageEnd_cases (room : ℕ) (es : List Entry) :
    (pageEnd room es = .ret none ∧ fill Entry.reclen room es = es) ∨
      ∃ reclen, pageEnd room es = .out .EINVAL reclen ∧ fill Entry.reclen room es ≠ es ∧
        room - width Entry.reclen (fill Entry.reclen room es) < reclen := by
  induction es generalizing room with
  | nil => exact Or.inl ⟨rfl, rfl⟩
  | cons e es ih =>
    unfold pageEnd
    by_cases hroom : room < e.reclen
    · rw [if_pos hroom, fill_cons_of_lt hroom]
      exact Or.inr ⟨_, rfl, (List.cons_ne_nil e es).symm, by simpa using hroom⟩
    · rw [if_neg hroom, fill_cons_of_le (by omega)]
      rcases ih (room - e.reclen) with ⟨hend, hfill⟩ | ⟨reclen, hend, hfill, hless⟩
      · exact Or.inl ⟨hend, by rw [hfill]⟩
      · refine Or.inr ⟨reclen, hend, fun heq => hfill (List.cons.inj heq).2, ?_⟩
        rw [width_cons]
        omega

/-- A call moves the entries from its offset on that have room, and fails only if there are
some, but no room for the first one. -/
theorem kvfsReaddir_eq (hwf : s.mp.Wf) (hroot : s.vnodes vp = some .root) (uio : Uio)
    (hoffset : uio.offset = position k) :
    let es := s.entries.drop k
    let page := fill Entry.reclen uio.resid es
    kvfsReaddir s vp uio =
      some (uio.move page, if page = [] ∧ es ≠ [] then some .EINVAL else none) := by
  intro es page
  have hbody : kvfsReaddirDot s uio = (uio.move page, pageEnd uio.resid es) :=
    kvfsReaddirDot_eq hwf hoffset
  unfold kvfsReaddir
  simp only [hroot, hbody]
  rw [if_neg (by omega)]
  rcases pageEnd_cases uio.resid es with ⟨hend, hfill⟩ | ⟨reclen, hend, hfill, hless⟩
  · have hall : ¬(page = [] ∧ es ≠ []) := by
      rintro ⟨hnil, hsome⟩
      exact hsome (hfill.symm.trans hnil)
    simp only [hend, if_neg hall]
  · simp only [hend]
    have hfit : width Entry.reclen page ≤ uio.resid := width_fill_le uio.resid es
    have hless' : uio.resid - width Entry.reclen page < reclen := hless
    have hresid : (uio.move page).resid = uio.resid - width Entry.reclen page := rfl
    by_cases hnil : page = []
    · have hsome : es ≠ [] := fun hes => hfill (by rw [hes]; rfl)
      rw [if_pos (by rw [hnil, move_nil]), if_pos ⟨hnil, hsome⟩]
    · have hpos : 0 < width Entry.reclen page := by
        obtain ⟨e, rest, hcons⟩ := List.exists_cons_of_ne_nil hnil
        have he := reclen_pos e
        rw [hcons, width_cons]
        omega
      rw [if_neg (by omega), if_pos (by omega), if_neg fun hcond => hnil hcond.1]

/-- The offset behind some entries is that of the entry after them. -/
theorem position_add {es : List Entry} (hes : es <+: s.entries.drop k) :
    position k + width Entry.reclen es = position (k + es.length) := by
  induction es generalizing k with
  | nil => rfl
  | cons e es ih =>
    obtain ⟨rest, hrest⟩ := hes
    have hdrop : s.entries.drop (k + 1) = es ++ rest := by
      rw [← List.drop_drop, ← hrest]
      rfl
    have hnext := ih (k := k + 1) ⟨rest, hdrop.symm⟩
    have hsize : position k + e.reclen = position (k + 1) := by
      cases k with
      | zero =>
        obtain rfl : ⟨dotName, kvfsRootIno, dtDir⟩ = e := (List.cons.inj hrest.symm).1
        rfl
      | succ k =>
        cases k with
        | zero =>
          obtain rfl : ⟨dotdotName, kvfsRootIno, dtDir⟩ = e := (List.cons.inj hrest.symm).1
          rfl
        | succ k =>
          have hmem : e ∈ s.fileEntries (List.range s.mp.slots) := by
            refine List.mem_of_mem_drop (i := k) ?_
            change e ∈ s.entries.drop (k + 1 + 1)
            rw [← hrest]
            exact List.mem_cons_self
          obtain ⟨i, -, rfl⟩ := List.mem_map.mp hmem
          rw [reclen_fileEntry]
          change 64 + 72 * k + 72 = 64 + 72 * (k + 1)
          omega
    rw [width_cons, List.length_cons, ← Nat.add_assoc, hsize, hnext]
    congr 1
    omega

end EmbeddedOs.Kvfs
