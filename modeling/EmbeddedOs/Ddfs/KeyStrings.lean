import EmbeddedOs.Kvfs.Listing
import EmbeddedOs.Ddfs.DedupTable

/-!
# Key strings

`hexdigit`, `digithex`, `str_to_key` and `key_to_str` of `ddfs_util.c`, and `key_to_str` of both
file systems as the loop that fills a buffer. The copies in `kvfs_util.c` differ in one place:
`hexdigit` of `ddfs_util.c` has the value of an upper-case digit right. `key_to_str` writes lower
case only, so that each of the two decoders gives the key back.
-/

namespace EmbeddedOs

open Lib.Bytes

/-! ## The strings of both file systems -/

namespace Kvfs

/-- One iteration of the loop of `str_to_key`, with `hexdigit` as a parameter. -/
def strToKeyStepWith (hexdigit : UInt8 → ℤ) (str : Name) (outKey : Key) (i : ℕ) : Option Key :=
  let d := hexdigit (str.char i)
  if d = -1 then none
  else
    let shift := if i % 2 = 0 then 4 else 0
    some (outKey.setIfInBounds (i / 2)
      ((outKey[i / 2]?).getD 0 ||| UInt8.ofInt (d * 2 ^ shift)))

/-- `str_to_key`, with `hexdigit` as a parameter. -/
def strToKeyWith (hexdigit : UInt8 → ℤ) (str : Name) : Option Key :=
  (List.range 40).foldlM (strToKeyStepWith hexdigit str) (Vector.replicate 20 0)

/-- The loop of `key_to_str` over the bytes of the key that are left, with `digithex` as a
parameter: the place behind the last character, and the memory. -/
def keyToStrLoop (digithex : UInt8 → UInt8) : List UInt8 → ℕ → (ℕ → UInt8) → ℕ × (ℕ → UInt8)
  | [], outStr, mem => (outStr, mem)
  | byte :: key, outStr, mem =>
    let mem := Function.update mem outStr (digithex (byte >>> 4))
    let mem := Function.update mem (outStr + 1) (digithex (byte &&& 0x0f))
    keyToStrLoop digithex key (outStr + 2) mem

/-- `key_to_str` into the memory from `outStr` on, with `digithex` as a parameter. -/
def keyToStrWith (digithex : UInt8 → UInt8) (key : Key) (outStr : ℕ) (mem : ℕ → UInt8) :
    ℕ → UInt8 :=
  let (outStr, mem) := keyToStrLoop digithex key.toList outStr mem
  Function.update mem outStr 0

/-- `key_to_str` of `kvfs_util.c` into the memory from `outStr` on. -/
def keyToStrMem (key : Key) (outStr : ℕ) (mem : ℕ → UInt8) : ℕ → UInt8 :=
  keyToStrWith digithex key outStr mem

end Kvfs

namespace Ddfs

open Kvfs (Name strToKeyWith keyToStrWith)

/-- `hexdigit` of `ddfs_util.c`. -/
def hexdigit (c : UInt8) : ℤ :=
  if 48 ≤ c ∧ c ≤ 57 then (c.toNat : ℤ) - 48
  else if 97 ≤ c ∧ c ≤ 102 then (c.toNat : ℤ) - 97 + 10
  else if 65 ≤ c ∧ c ≤ 70 then (c.toNat : ℤ) - 65 + 10
  else -1

/-- `digithex` of `ddfs_util.c`. -/
def digithex (digit : UInt8) : UInt8 := if digit ≤ 9 then 48 + digit else 97 + digit - 10

/-- `str_to_key` of `ddfs_util.c`; `none` if it returns 1. -/
def strToKey (str : Name) : Option Key := strToKeyWith hexdigit str

/-- `key_to_str` of `ddfs_util.c` into the memory from `outStr` on. -/
def keyToStrMem (key : Key) (outStr : ℕ) (mem : ℕ → UInt8) : ℕ → UInt8 :=
  keyToStrWith digithex key outStr mem

end Ddfs

namespace Kvfs

variable {key : Key} {str : Name} {mem : ℕ → UInt8} {outStr i vp : ℕ} {s : Fs}

theorem strToKeyWith_hexdigit : strToKeyWith hexdigit str = strToKey str := rfl

/-- `str_to_key` reads a digit through `hexdigit` only. -/
theorem strToKeyWith_congr {hexdigit hexdigit' : UInt8 → ℤ}
    (h : ∀ j < 40, hexdigit (str.char j) = hexdigit' (str.char j)) :
    strToKeyWith hexdigit str = strToKeyWith hexdigit' str := by
  have hfold : ∀ i ≤ 40, ∀ key, (List.range i).foldlM (strToKeyStepWith hexdigit str) key =
      (List.range i).foldlM (strToKeyStepWith hexdigit' str) key := by
    intro i hi key
    induction i with
    | zero => rfl
    | succ i ih =>
      have hstep (key : Key) : strToKeyStepWith hexdigit str key i =
          strToKeyStepWith hexdigit' str key i := by
        simp only [strToKeyStepWith, h i (by omega)]
      rw [List.range_succ, List.foldlM_append, List.foldlM_append, ih (by omega)]
      simp only [List.foldlM_cons, List.foldlM_nil, hstep]
  exact hfold 40 le_rfl _

/-- On lower-case digits the two decoders agree. -/
theorem hexdigit_ddfs {c : UInt8} (h : LowerDigit c) : Ddfs.hexdigit c = hexdigit c := by
  simp only [LowerDigit, UInt8.le_iff_toNat_le, UInt8.reduceToNat] at h
  simp only [Ddfs.hexdigit, hexdigit, UInt8.le_iff_toNat_le, UInt8.reduceToNat]
  rcases h with h | h
  · rw [if_pos h, if_pos h]
  · have hdigit : ¬(48 ≤ c.toNat ∧ c.toNat ≤ 57) := by omega
    rw [if_neg hdigit, if_neg hdigit, if_pos h, if_pos (Or.inl h)]

/-- A name of lower-case digits has the same key in both file systems. -/
theorem strToKey_ddfs (h : LowerHex str) : Ddfs.strToKey str = strToKey str := by
  rw [Ddfs.strToKey, ← strToKeyWith_hexdigit]
  exact strToKeyWith_congr fun j hj => hexdigit_ddfs (h.char hj)

/-! ## Filling the buffer -/

/-- The loop writes two characters for each byte, behind each other. -/
theorem keyToStrLoop_eq (digithex : UInt8 → UInt8) (bytes : List UInt8) (outStr : ℕ)
    (mem : ℕ → UInt8) :
    keyToStrLoop digithex bytes outStr mem =
      (outStr + 2 * bytes.length, put mem outStr (bytes.flatMap fun byte : UInt8 =>
        [digithex (byte >>> 4), digithex (byte &&& 0x0f)])) := by
  induction bytes generalizing outStr mem with
  | nil => simp [keyToStrLoop]
  | cons byte bytes ih =>
    have hpair : Function.update (Function.update mem outStr (digithex (byte >>> 4))) (outStr + 1)
        (digithex (byte &&& 0x0f)) =
        put mem outStr [digithex (byte >>> 4), digithex (byte &&& 0x0f)] := by
      rw [update_eq_put, update_eq_put]
      exact put_put_append
    have hput : put (put mem outStr [digithex (byte >>> 4), digithex (byte &&& 0x0f)]) (outStr + 2)
        (bytes.flatMap fun byte : UInt8 => [digithex (byte >>> 4), digithex (byte &&& 0x0f)]) = _ :=
      put_put_append
    rw [keyToStrLoop, hpair, ih, List.flatMap_cons, ← hput, List.length_cons]
    refine Prod.ext ?_ rfl
    change outStr + 2 + 2 * bytes.length = outStr + 2 * (bytes.length + 1)
    omega

/-- `key_to_str` writes the name of the key and a zero. -/
theorem keyToStrMem_eq : keyToStrMem key outStr mem = put mem outStr (keyToStr key ++ [0]) := by
  have hlen : key.toList.length = 20 := Vector.length_toList
  have hname : keyToStr key = key.toList.flatMap fun byte : UInt8 =>
      [digithex (byte >>> 4), digithex (byte &&& 0x0f)] := by
    unfold keyToStr
    rfl
  have hzero (c : ℕ → UInt8) (o : ℕ) : Function.update c o 0 = put c o [0] := by
    funext o'
    by_cases ho : o' = o
    · subst ho
      rw [Function.update_self, put_of_mem le_rfl (by simp)]
      simp
    · rw [Function.update_of_ne ho, put_of_not_mem]
      simp only [List.length_cons, List.length_nil]
      omega
  rw [keyToStrMem, keyToStrWith, keyToStrLoop_eq, ← hname, hlen]
  change Function.update _ _ _ = _
  rw [hzero, ← put_put_append, length_keyToStr]

/-- The two file systems write the same name. -/
theorem keyToStrMem_ddfs : Ddfs.keyToStrMem key outStr mem = keyToStrMem key outStr mem := rfl

/-- The string in the memory from `outStr` on: `n` characters at most, up to the first zero. -/
def stringAt (mem : ℕ → UInt8) (outStr : ℕ) : ℕ → Name
  | 0 => []
  | n + 1 => if mem outStr = 0 then [] else mem outStr :: stringAt mem (outStr + 1) n

/-- A string that was written with its zero is there. -/
theorem stringAt_put {n : ℕ} (hlen : str.length < n) (hchars : ∀ c ∈ str, c ≠ 0) :
    stringAt (put mem outStr (str ++ [0])) outStr n = str := by
  induction str generalizing mem outStr n with
  | nil =>
    cases n with
    | zero => rfl
    | succ n =>
      have hzero : put mem outStr ([] ++ [0]) outStr = 0 := by
        rw [put_of_mem le_rfl (by simp)]
        simp
      rw [stringAt, if_pos hzero]
  | cons c str ih =>
    cases n with
    | zero => simp at hlen
    | succ n =>
      have hc : c ≠ 0 := hchars c (List.mem_cons_self ..)
      have hfirst : put mem outStr (c :: str ++ [0]) outStr = c := by
        rw [put_of_mem le_rfl (by simp)]
        simp
      have hrest : put mem outStr (c :: str ++ [0]) =
          put (put mem outStr [c]) (outStr + 1) (str ++ [0]) := by
        have happend : put (put mem outStr [c]) (outStr + [c].length) (str ++ [0]) = _ :=
          put_put_append
        exact happend.symm
      have hlen' : str.length < n := by simpa using hlen
      rw [stringAt, hfirst, if_neg hc, hrest,
        ih hlen' fun c' hc' => hchars c' (List.mem_cons_of_mem _ hc')]

/-- `key_to_str` writes a string of 40 lower-case digits and its zero, in 41 bytes from `outStr`
on, and `str_to_key` of that string gives the key back. -/
def RoundTrips (keyToStr : Key → ℕ → (ℕ → UInt8) → ℕ → UInt8) (strToKey : Name → Option Key) :
    Prop :=
  ∀ key outStr mem,
    (∀ j < 40, LowerDigit (keyToStr key outStr mem (outStr + j))) ∧
    keyToStr key outStr mem (outStr + 40) = 0 ∧
    (∀ o, o < outStr ∨ outStr + 41 ≤ o → keyToStr key outStr mem o = mem o) ∧
    strToKey (stringAt (keyToStr key outStr mem) outStr 41) = some key

theorem ne_zero_of_lowerDigit {c : UInt8} (h : LowerDigit c) : c ≠ 0 := by
  rintro rfl
  exact absurd h (by decide)

/-- The string in the buffer is the name of the key. -/
theorem stringAt_keyToStrMem : stringAt (keyToStrMem key outStr mem) outStr 41 = keyToStr key := by
  have hlen : (keyToStr key).length < 41 := by
    rw [length_keyToStr]
    omega
  rw [keyToStrMem_eq]
  exact stringAt_put hlen fun c hc => ne_zero_of_lowerDigit ((lowerHex_keyToStr key).digits c hc)

theorem roundTrips_kvfs : RoundTrips keyToStrMem strToKey := by
  intro key outStr mem
  have hlen : (keyToStr key ++ [0]).length = 41 := by simp
  refine ⟨fun j hj => ?_, ?_, fun o ho => ?_, ?_⟩
  · have hchar := (lowerHex_keyToStr key).char hj
    have hj' : j < (keyToStr key).length := by
      rw [length_keyToStr]
      exact hj
    rw [Name.char, List.getElem?_eq_getElem hj'] at hchar
    rw [keyToStrMem_eq, put_of_mem (by omega) (by omega)]
    simpa [List.getElem_append_left hj'] using hchar
  · rw [keyToStrMem_eq, put_of_mem (by omega) (by omega)]
    simp
  · rw [keyToStrMem_eq, put_of_not_mem (by omega)]
  · rw [stringAt_keyToStrMem, strToKey_keyToStr]

theorem roundTrips_ddfs : RoundTrips Ddfs.keyToStrMem Ddfs.strToKey := by
  intro key outStr mem
  obtain ⟨hdigits, hzero, hrest, -⟩ := roundTrips_kvfs key outStr mem
  refine ⟨hdigits, hzero, hrest, ?_⟩
  rw [keyToStrMem_ddfs, stringAt_keyToStrMem, strToKey_ddfs (lowerHex_keyToStr key),
    strToKey_keyToStr]

/-! ## The names in the directory -/

/-- An entry names the file of a slot. -/
def Dirent.Names (s : Fs) (d : Dirent) : Prop :=
  ∃ i < s.mp.slots, (s.inodeAt i).free = false ∧ d.fileno = 32 * i ∧
    d.name = keyToStr (s.inodeAt i).key

/-- The regular files that were returned are those of slots. -/
def Uio.Names (s : Fs) (uio : Uio) : Prop := ∀ d ∈ uio.dirents, d.type = dtReg → d.Names s

variable {uio uio' : Uio}

/-- An entry that is no regular file, or that names the file of a slot, may be returned. -/
theorem Uio.Names.one (h : uio.Names s) (name : Name) (fileno : ℕ) (type : UInt8)
    (hentry : type = dtReg → ∃ i < s.mp.slots, (s.inodeAt i).free = false ∧ fileno = 32 * i ∧
      name = keyToStr (s.inodeAt i).key) : (kvfsReaddirOne uio name fileno type).1.Names s := by
  unfold kvfsReaddirOne
  dsimp only
  split
  · exact h
  · intro d hd htype
    rcases List.mem_append.mp hd with hold | hnew
    · exact h d hold htype
    · rw [List.mem_singleton] at hnew
      subst hnew
      exact hentry htype

theorem Uio.Names.loop (hwf : s.mp.Wf) {is : List ℕ} (his : ∀ i ∈ is, i < s.mp.slots)
    (h : uio.Names s) (reclens : ℕ) : (kvfsReaddirLoop s is reclens uio).1.Names s := by
  induction is generalizing uio reclens with
  | nil => exact h
  | cons i is ih =>
    have hinode : Inode.ofBytes (get s.disk (s.mp.tableLoc (32 * i)) 32) = s.inodeAt i := by
      rw [hwf.tableLoc_eq]
      rfl
    have hrest : ∀ j ∈ is, j < s.mp.slots := fun j hj => his j (List.mem_cons_of_mem _ hj)
    simp only [kvfsReaddirLoop, hinode]
    cases hfree : (s.inodeAt i).free with
    | true => exact ih hrest h _
    | false =>
      have hone := h.one (keyToStr (s.inodeAt i).key) (32 * i) dtReg
        fun _ => ⟨i, his i (List.mem_cons_self ..), hfree, rfl, rfl⟩
      simp only [Bool.false_eq_true, if_false]
      split
      · exact ih hrest h _
      · split
        · exact h
        · cases hcopy : kvfsReaddirOne uio (keyToStr (s.inodeAt i).key) (32 * i) dtReg with
          | mk uio₁ error =>
            rw [hcopy] at hone
            cases error with
            | some error => exact hone
            | none => exact ih hrest hone _

theorem Uio.Names.dotdot (hwf : s.mp.Wf) (h : uio.Names s) :
    (kvfsReaddirDotdot s uio).1.Names s := by
  have hslots : ∀ i ∈ List.range s.mp.slots, i < s.mp.slots := fun i hi => List.mem_range.mp hi
  have hone := h.one dotdotName kvfsRootIno dtDir fun htype =>
    absurd htype (by decide)
  unfold kvfsReaddirDotdot
  dsimp only
  split
  · split
    · exact h
    · cases hcopy : kvfsReaddirOne uio dotdotName kvfsRootIno dtDir with
      | mk uio₁ error =>
        rw [hcopy] at hone
        cases error with
        | some error => exact hone
        | none => exact hone.loop hwf hslots _
  · exact h.loop hwf hslots _

theorem Uio.Names.dot (hwf : s.mp.Wf) (h : uio.Names s) : (kvfsReaddirDot s uio).1.Names s := by
  have hone := h.one dotName kvfsRootIno dtDir fun htype =>
    absurd htype (by decide)
  unfold kvfsReaddirDot
  split
  · cases hcopy : kvfsReaddirOne uio dotName kvfsRootIno dtDir with
    | mk uio₁ error =>
      rw [hcopy] at hone
      cases error with
      | some error => exact hone
      | none => exact hone.dotdot hwf
  · exact h.dotdot hwf

/-- Whatever the offset and the room of a call are, the regular files it returns are those of
slots. -/
theorem kvfsReaddir_names (hwf : s.mp.Wf) (h : uio.Names s) {error : Option Errno}
    (hcall : kvfsReaddir s vp uio = some (uio', error)) : uio'.Names s := by
  have hdot := h.dot hwf
  unfold kvfsReaddir at hcall
  cases hvnode : s.vnodes vp with
  | none =>
    rw [hvnode] at hcall
    cases hcall
  | some vnode =>
    rw [hvnode] at hcall
    cases vnode with
    | file knode =>
      cases hcall
      exact h
    | root =>
      simp only at hcall
      split at hcall
      · cases hcall
        exact h
      · cases hend : kvfsReaddirDot s uio with
        | mk uio₁ how =>
          rw [hend] at hcall hdot
          cases how with
          | ret error₁ =>
            cases hcall
            exact hdot
          | out error₁ reclen =>
            simp only at hcall
            split at hcall
            · cases hcall
              exact hdot
            · split at hcall <;> (cases hcall; exact hdot)

/-- The name of a file is accepted, and leads to the vnode of the first file with its key. -/
theorem kvfsLookup_keyToStr (hwf : s.mp.Wf) (hroot : s.vnodes vp = some .root)
    (hi : i < s.mp.slots) (hused : (s.inodeAt i).free = false) (nameiop : Nameiop) (last : Bool) :
    ∃ j < s.mp.slots, (s.inodeAt j).free = false ∧ (s.inodeAt j).key = (s.inodeAt i).key ∧
      ∃ t vp', kvfsLookup s vp ⟨keyToStr (s.inodeAt i).key, nameiop, last⟩ = (t, .ok vp') ∧
        t.vfsHashGet (32 * j) = some vp' ∧ (s.vfsHashGet (32 * j) = none →
          t.vnodes vp' = some (.file (s.slotNode j (s.inodeAt j)))) := by
  cases hfound : s.lookupKey (s.inodeAt i).key with
  | none => exact absurd rfl (lookupKey_eq_none.mp hfound i hi hused)
  | some j =>
    obtain ⟨hj, hjused, hkey⟩ := of_lookupKey hfound
    refine ⟨j, hj, hjused, hkey, ?_⟩
    have hlookup : kvfsLookup s vp ⟨keyToStr (s.inodeAt i).key, nameiop, last⟩ = _ :=
      kvfsLookup_key hwf hroot length_keyToStr (strToKey_keyToStr _)
    rw [hlookup, hfound]
    change ∃ t vp', kvfsVget s (32 * j) = (t, .ok vp') ∧ _
    unfold kvfsVget
    cases hget : s.vfsHashGet (32 * j) with
    | some vp' =>
      refine ⟨s, vp', kvfsVgetInternal_cached hget none, hget, fun hnone => ?_⟩
      cases hnone
    | none =>
      refine ⟨_, _, kvfsVgetInternal_file hwf hget hjused none, ?_, fun _ => Fs.vnodes_addVnode⟩
      simp [Fs.vfsHashGet, Fs.addVnode, Fs.vfsHashInsert, Fs.setVnode]

/-- In both file systems the string of a key is 40 lower-case digits with a zero behind them, and
gives the key back. Each regular file that a call of `kvfs_readdir` returns, whatever its offset
and its room are, has the name of its slot's key, `str_to_key` accepts it, and a lookup of it
leads to the vnode of a slot with that key. -/
theorem key_strings_round_trip (hwf : s.mp.Wf) (hroot : s.vnodes vp = some .root) :
    RoundTrips keyToStrMem strToKey ∧ RoundTrips Ddfs.keyToStrMem Ddfs.strToKey ∧
    ∀ offset resid uio' error, kvfsReaddir s vp ⟨offset, resid, []⟩ = some (uio', error) →
      ∀ d ∈ uio'.dirents, d.type = dtReg →
        ∃ i < s.mp.slots, (s.inodeAt i).free = false ∧ d.fileno = 32 * i ∧
          strToKey d.name = some (s.inodeAt i).key ∧ ∀ nameiop last,
          ∃ j < s.mp.slots, (s.inodeAt j).free = false ∧ (s.inodeAt j).key = (s.inodeAt i).key ∧
            ∃ t vp', kvfsLookup s vp ⟨d.name, nameiop, last⟩ = (t, .ok vp') ∧
              t.vfsHashGet (32 * j) = some vp' ∧ (s.vfsHashGet (32 * j) = none →
                t.vnodes vp' = some (.file (s.slotNode j (s.inodeAt j)))) := by
  refine ⟨roundTrips_kvfs, roundTrips_ddfs, fun offset resid uio' error hcall d hd htype => ?_⟩
  have hempty : Uio.Names s ⟨offset, resid, []⟩ := fun d hd => absurd hd List.not_mem_nil
  obtain ⟨i, hi, hused, hfileno, hname⟩ := kvfsReaddir_names hwf hempty hcall d hd htype
  refine ⟨i, hi, hused, hfileno, ?_, fun nameiop last => ?_⟩
  · rw [hname, strToKey_keyToStr]
  · rw [hname]
    exact kvfsLookup_keyToStr hwf hroot hi hused nameiop last

/-- The round trip, and the directory of one file. -/
theorem key_strings_round_trip_one :
    RoundTrips keyToStrMem strToKey ∧ RoundTrips Ddfs.keyToStrMem Ddfs.strToKey ∧
    ∀ offset resid uio' error,
      kvfsReaddir oneFileFs freshFs.nextVp ⟨offset, resid, []⟩ = some (uio', error) →
      ∀ d ∈ uio'.dirents, d.type = dtReg →
        ∃ i < oneFileFs.mp.slots, (oneFileFs.inodeAt i).free = false ∧ d.fileno = 32 * i ∧
          strToKey d.name = some (oneFileFs.inodeAt i).key ∧ ∀ nameiop last,
          ∃ j < oneFileFs.mp.slots, (oneFileFs.inodeAt j).free = false ∧
            (oneFileFs.inodeAt j).key = (oneFileFs.inodeAt i).key ∧
            ∃ t vp', kvfsLookup oneFileFs freshFs.nextVp ⟨d.name, nameiop, last⟩ = (t, .ok vp') ∧
              t.vfsHashGet (32 * j) = some vp' ∧ (oneFileFs.vfsHashGet (32 * j) = none →
                t.vnodes vp' = some (.file (oneFileFs.slotNode j (oneFileFs.inodeAt j)))) :=
  key_strings_round_trip consistent_oneFileFs.wf root_oneFileFs

end Kvfs

end EmbeddedOs
