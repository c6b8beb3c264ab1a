import Xv6.FileContents

namespace Xv6

open Bytes Prog

/-- A string in memory, of which bytes behind the list are 0. -/
def strncmp : Nat → List Byte → List Byte → Int
  | 0, _, _ => 0
  | n + 1, p, q =>
    if p.headD 0 ≠ 0 ∧ p.headD 0 = q.headD 0 then strncmp n p.tail q.tail
    else (p.headD 0).toNat - (q.headD 0).toNat

/-- The n bytes that strncpy stores. -/
def strncpy : Nat → List Byte → List Byte
  | 0, _ => []
  | n + 1, t => if t.headD 0 = 0 then 0 :: List.replicate n 0 else t.headD 0 :: strncpy n t.tail

def namecmp (s t : List Byte) : Int := strncmp DIRSIZ s t

/-- The name that a string stands for in a directory. -/
def nameOf (str : List Byte) : Name := (str.take DIRSIZ).takeWhile (· ≠ 0)

namespace Dir

/-- The loops of dirlookup and dirlink with the strings that they are called with. -/
def dirlookupScan (dp : InodeSlot) (name : List Byte) : List Nat → FsM (Option (InodeSlot × Nat))
  | [] => return none
  | off :: offs => do
    let de ← readDirent dp off .dirlinkRead
    if direntInum de = 0 then dirlookupScan dp name offs
    else if namecmp name (de.drop 2) = 0 then
      let ip ← iget (direntInum de)
      return some (ip, off)
    else dirlookupScan dp name offs

def dirlookup (dp : InodeSlot) (name : List Byte) : FsM (Option (InodeSlot × Nat)) := do
  let s ← get
  if (s.inode dp).din.type ≠ tDir then throw (.panic .dirlookupNotDir)
  else dirlookupScan dp name (direntOffsets (s.inode dp).din.size.toNat)

def dirlink (dp : InodeSlot) (name : List Byte) (inum : Nat) : FsM Bool := do
  match ← dirlookup dp name with
  | some (ip, _) =>
    iput ip
    return false
  | none =>
    let s ← get
    let size := (s.inode dp).din.size.toNat
    let off ← dirlinkScan dp (16 * ((size + 15) / 16)) (direntOffsets size)
    let n ← writei dp (bytes16 (BitVec.ofNat 16 inum) ++ strncpy DIRSIZ name) off
    if n = some 16 then return true else throw (.panic .dirlink)

end Dir

section Strings

variable {str : List Byte}

theorem takeWhile_step (n : Nat) (p : List Byte) : (p.take (n + 1)).takeWhile (· ≠ 0) =
    if p.headD 0 = 0 then [] else p.headD 0 :: (p.tail.take n).takeWhile (· ≠ 0) := by
  cases p with
  | nil => rfl
  | cons a p =>
    rw [List.take_succ_cons, List.takeWhile_cons, List.headD_cons, List.tail_cons]
    by_cases ha : a = 0
    · rw [if_pos ha, if_neg (by simpa using ha)]
    · rw [if_neg ha, if_pos (by simpa using ha)]

theorem strncmp_eq_zero (n : Nat) (p q : List Byte) :
    strncmp n p q = 0 ↔ (p.take n).takeWhile (· ≠ 0) = (q.take n).takeWhile (· ≠ 0) := by
  induction n generalizing p q with
  | zero => simp [strncmp]
  | succ n ih =>
    have hsub : ((p.headD 0).toNat : Int) - (q.headD 0).toNat = 0 ↔ p.headD 0 = q.headD 0 := by
      rw [Int.sub_eq_zero, Int.natCast_inj, ← BitVec.toNat_eq]
    rw [strncmp, takeWhile_step, takeWhile_step]
    by_cases hp : p.headD 0 = 0
    · rw [if_neg fun h => h.1 hp, if_pos hp, hsub, hp]
      by_cases hq : q.headD 0 = 0
      · rw [if_pos hq, hq]
        exact ⟨fun _ => rfl, fun _ => rfl⟩
      · rw [if_neg hq]
        exact ⟨fun h => absurd h.symm hq, fun h => by cases h⟩
    · by_cases hpq : p.headD 0 = q.headD 0
      · rw [if_pos ⟨hp, hpq⟩, if_neg hp, if_neg (hpq ▸ hp), ih, List.cons.injEq]
        exact ⟨fun h => ⟨hpq, h⟩, fun h => h.2⟩
      · rw [if_neg fun h => hpq h.2, if_neg hp, hsub]
        refine ⟨fun h => absurd h hpq, fun h => ?_⟩
        split at h
        next => cases h
        next => exact (List.cons.inj h).1

theorem strncpy_eq (n : Nat) (t : List Byte) : strncpy n t =
    (t.take n).takeWhile (· ≠ 0) ++
      List.replicate (n - ((t.take n).takeWhile (· ≠ 0)).length) 0 := by
  induction n generalizing t with
  | zero => simp [strncpy]
  | succ n ih =>
    rw [strncpy, takeWhile_step]
    split
    next => rfl
    next => rw [ih, List.cons_append, List.length_cons, Nat.add_sub_add_right]

theorem namecmp_entry (str de : List Byte) :
    namecmp str (de.drop 2) = 0 ↔ direntName de = nameOf str :=
  (strncmp_eq_zero DIRSIZ str (de.drop 2)).trans eq_comm

theorem nameOf_length (str : List Byte) : (nameOf str).length ≤ DIRSIZ :=
  Nat.le_trans (List.takeWhile_sublist _).length_le (List.length_take_le ..)

theorem nameOf_ne_zero {str : List Byte} {c : Byte} (h : c ∈ nameOf str) : c ≠ 0 := by
  simpa using List.mem_takeWhile_imp h

theorem encodeDirent_nameOf (inum : Nat) (str : List Byte) :
    encodeDirent inum (nameOf str) = bytes16 (BitVec.ofNat 16 inum) ++ strncpy DIRSIZ str := by
  rw [encodeDirent, strncpy_eq, List.take_of_length_le (nameOf_length str)]
  rfl

theorem direntName_nameOf (inum : Nat) (str : List Byte) :
    direntName (encodeDirent inum (nameOf str)) = nameOf str := by
  rw [direntName_encode fun _ => nameOf_ne_zero, List.take_of_length_le (nameOf_length str)]

end Strings

theorem Dir.dirlookup_eq (dp : InodeSlot) (str : List Byte) :
    Dir.dirlookup dp str = Xv6.dirlookup dp (nameOf str) := by
  have hscan : ∀ offs, Dir.dirlookupScan dp str offs = Xv6.dirlookupScan dp (nameOf str) offs := by
    intro offs
    induction offs with
    | nil => rfl
    | cons off offs ih => simp only [Dir.dirlookupScan, Xv6.dirlookupScan, namecmp_entry, ih]
  simp only [Dir.dirlookup, Xv6.dirlookup, hscan]

theorem Dir.dirlink_eq (dp : InodeSlot) (str : List Byte) (inum : Nat) :
    Dir.dirlink dp str inum = Xv6.dirlink dp (nameOf str) inum := by
  rw [Dir.dirlink, Dir.dirlookup_eq, ← encodeDirent_nameOf]
  rfl

section Entries

variable {c : List Byte} {off off' o : Nat} {de : List Byte} {name : Name} {inum : Nat}

/-- The entry at off is in use, and binds the name to the number. -/
structure DirEntry (c : List Byte) (off : Nat) (name : Name) (inum : Nat) : Prop where
  mem : off ∈ direntOffsets c.length
  number : direntInum (direntAt c off) = inum
  used : inum ≠ 0
  named : direntName (direntAt c off) = name

def NoDuplicates (c : List Byte) : Prop :=
  ∀ off off' name inum inum', DirEntry c off name inum → DirEntry c off' name inum' → off = off'

theorem findEntry_some (h : findEntry c name = some off) :
    DirEntry c off name (direntInum (direntAt c off)) := by
  have hfound := List.find?_some h
  simp only [decide_eq_true_eq] at hfound
  exact ⟨List.mem_of_find?_eq_some h, rfl, hfound.1, hfound.2⟩

theorem binding_eq_none : binding c name = none ↔ ∀ off inum, ¬ DirEntry c off name inum := by
  rw [binding, Option.map_eq_none_iff, findEntry, List.find?_eq_none]
  constructor
  · intro h off inum he
    refine h off he.mem ?_
    simpa using ⟨he.number ▸ he.used, he.named⟩
  · intro h off hoff hfound
    simp only [decide_eq_true_eq] at hfound
    exact h off _ ⟨hoff, rfl, hfound.1, hfound.2⟩

theorem binding_eq_some (hc : NoDuplicates c) :
    binding c name = some inum ↔ ∃ off, DirEntry c off name inum := by
  constructor
  · intro h
    obtain ⟨off, hoff, rfl⟩ := Option.map_eq_some_iff.mp h
    exact ⟨off, findEntry_some hoff⟩
  · rintro ⟨off, he⟩
    cases hb : binding c name with
    | none => exact absurd he (binding_eq_none.mp hb off inum)
    | some j =>
      obtain ⟨off', hoff', rfl⟩ := Option.map_eq_some_iff.mp hb
      have hfound := findEntry_some hoff'
      obtain rfl := hc off off' name inum _ he hfound
      rw [he.number]

theorem direntAt_getElem? (l : List Byte) (off k : Nat) :
    (direntAt l off)[k]? = if k < 16 then l[off + k]? else none := by
  rw [direntAt, List.getElem?_take]
  split
  next => rw [List.getElem?_drop]
  next => rfl

theorem direntAt_splice (hoff : off % 16 = 0) (hle : off ≤ c.length) (hde : de.length = 16)
    (ho : o % 16 = 0) :
    direntAt (splice c off de) o = if o = off then de else direntAt c o := by
  refine List.ext_getElem? fun k => ?_
  rw [direntAt_getElem?, splice_getElem? hle]
  by_cases hk : k < 16
  · rw [if_pos hk]
    by_cases he : o = off
    · obtain ⟨v, hv⟩ : ∃ v, de[k]? = some v := ⟨_, List.getElem?_eq_getElem (by omega)⟩
      rw [if_pos he, he, patch, if_pos (by omega), Nat.add_sub_cancel_left, hv, Option.some_or]
    · rw [if_neg he, patch_eq_none.mpr (by omega), Option.none_or, direntAt_getElem?, if_pos hk]
  · rw [if_neg hk]
    split
    next => rw [List.getElem?_eq_none (by omega)]
    next => rw [direntAt_getElem?, if_neg hk]

theorem entry_splice (hoff : off % 16 = 0) (hle : off ≤ c.length) (hc : c.length % 16 = 0)
    (hde : de.length = 16) :
    DirEntry (splice c off de) o name inum ↔
      (o = off ∧ direntInum de = inum ∧ inum ≠ 0 ∧ direntName de = name) ∨
        (o ≠ off ∧ DirEntry c o name inum) := by
  have hlen : (splice c off de).length = max c.length (off + de.length) := splice_length hle
  have hmem : o ∈ direntOffsets (splice c off de).length ↔
      o % 16 = 0 ∧ o < max c.length (off + 16) := by
    rw [hlen, hde, mem_direntOffsets (by omega)]
  have hold : o ∈ direntOffsets c.length ↔ o % 16 = 0 ∧ o < c.length := mem_direntOffsets hc
  constructor
  · rintro ⟨h1, h2, h3, h4⟩
    have ho := hmem.mp h1
    rw [direntAt_splice hoff hle hde ho.1] at h2 h4
    by_cases he : o = off
    · rw [if_pos he] at h2 h4
      exact .inl ⟨he, h2, h3, h4⟩
    · rw [if_neg he] at h2 h4
      exact .inr ⟨he, hold.mpr ⟨ho.1, by omega⟩, h2, h3, h4⟩
  · rintro (⟨rfl, h2, h3, h4⟩ | ⟨hne, h1, h2, h3, h4⟩)
    · refine ⟨hmem.mpr ⟨hoff, by omega⟩, ?_, h3, ?_⟩
      · rw [direntAt_splice hoff hle hde hoff, if_pos rfl, h2]
      · rw [direntAt_splice hoff hle hde hoff, if_pos rfl, h4]
    · have ho := hold.mp h1
      refine ⟨hmem.mpr ⟨ho.1, by omega⟩, ?_, h3, ?_⟩
      · rw [direntAt_splice hoff hle hde ho.1, if_neg hne, h2]
      · rw [direntAt_splice hoff hle hde ho.1, if_neg hne, h4]

/-- The offset of the first entry that is not in use, or of the end. -/
def freeSlot (c : List Byte) : Nat :=
  ((direntOffsets c.length).find? fun off => direntInum (direntAt c off) = 0).getD c.length

theorem freeSlot_le (hc : c.length % 16 = 0) : freeSlot c % 16 = 0 ∧ freeSlot c ≤ c.length := by
  unfold freeSlot
  cases hfind : (direntOffsets c.length).find? fun off => direntInum (direntAt c off) = 0 with
  | none => exact ⟨hc, Nat.le_refl _⟩
  | some off =>
    have hmem := (mem_direntOffsets hc).mp (List.mem_of_find?_eq_some hfind)
    exact ⟨hmem.1, Nat.le_of_lt hmem.2⟩

theorem freeSlot_unused (hc : c.length % 16 = 0) : ¬ DirEntry c (freeSlot c) name inum := by
  intro he
  have hlt := ((mem_direntOffsets hc).mp he.mem).2
  unfold freeSlot at he hlt
  cases hfind : (direntOffsets c.length).find? fun off => direntInum (direntAt c off) = 0 with
  | none =>
    rw [hfind, Option.getD_none] at hlt
    omega
  | some off =>
    rw [hfind, Option.getD_some] at he
    have hzero := List.find?_some hfind
    simp only [decide_eq_true_eq] at hzero
    exact he.used (he.number.symm.trans hzero)

/-- An entry is written whose name no other one has: only the binding of this name changes. -/
theorem binding_splice (hc : c.length % 16 = 0) (hdup : NoDuplicates c) (hoff : off % 16 = 0)
    (hle : off ≤ c.length) (hde : de.length = 16) (hname : direntInum de ≠ 0 → direntName de = name)
    (hat : ∀ n j, DirEntry c off n j → n = name) (hother : ∀ o j, o ≠ off → ¬ DirEntry c o name j) :
    NoDuplicates (splice c off de) ∧ ∀ n, binding (splice c off de) n =
      if n = name then (if direntInum de = 0 then none else some (direntInum de)) else binding c n := by
  have hentry : ∀ o n j, DirEntry (splice c off de) o n j ↔
      (o = off ∧ n = name ∧ direntInum de = j ∧ j ≠ 0) ∨ (o ≠ off ∧ DirEntry c o n j) := by
    intro o n j
    rw [entry_splice hoff hle hc hde]
    refine or_congr ⟨?_, ?_⟩ Iff.rfl
    · rintro ⟨ho, rfl, hpos, rfl⟩
      exact ⟨ho, hname hpos, rfl, hpos⟩
    · rintro ⟨ho, rfl, rfl, hpos⟩
      exact ⟨ho, rfl, hpos, hname hpos⟩
  have hnodup : NoDuplicates (splice c off de) := by
    intro o o' n j j' h h'
    rcases (hentry o n j).mp h with ⟨ho, hn, _⟩ | ⟨hne, h⟩
    · rcases (hentry o' n j').mp h' with ⟨ho', _⟩ | ⟨hne', h'⟩
      · exact ho.trans ho'.symm
      · exact absurd (hn ▸ h') (hother o' j' hne')
    · rcases (hentry o' n j').mp h' with ⟨_, hn, _⟩ | ⟨_, h'⟩
      · exact absurd (hn ▸ h) (hother o j hne)
      · exact hdup o o' n j j' h h'
  refine ⟨hnodup, fun n => Option.ext fun j => ?_⟩
  rw [binding_eq_some hnodup]
  by_cases hn : n = name
  · rw [if_pos hn]
    constructor
    · rintro ⟨o, h⟩
      rcases (hentry o n j).mp h with ⟨_, _, rfl, hpos⟩ | ⟨hne, h⟩
      · rw [if_neg hpos]
      · exact absurd (hn ▸ h) (hother o j hne)
    · intro h
      obtain ⟨hpos, hsome⟩ := Option.ite_none_left_eq_some.mp h
      obtain rfl := Option.some.inj hsome
      exact ⟨off, (hentry off n _).mpr (.inl ⟨rfl, hn, rfl, hpos⟩)⟩
  · rw [if_neg hn, binding_eq_some hdup]
    constructor
    · rintro ⟨o, h⟩
      rcases (hentry o n j).mp h with ⟨_, he, _⟩ | ⟨_, h⟩
      · exact absurd he hn
      · exact ⟨o, h⟩
    · rintro ⟨o, h⟩
      refine ⟨o, (hentry o n j).mpr (.inr ⟨?_, h⟩)⟩
      rintro rfl
      exact hn (hat n j h)

end Entries

section Calls

variable {s t u : Fs} {dp ip : InodeSlot} {i inum : Nat} {name : Name} {c : List Byte}

/-- The disk and the entries of the inode cache that are in use are those of s. -/
structure Fs.Unchanged (s t : Fs) : Prop where
  disk : t.disk = s.disk
  sb : t.sb = s.sb
  refs : ∀ jp, (t.inode jp).ref = (s.inode jp).ref
  inodes : ∀ jp, 0 < (s.inode jp).ref → t.inode jp = s.inode jp

/-- An entry of the inode cache with one more reference; one that was not in use is not valid. -/
structure Referenced (i : Nat) (v w : Inode) : Prop where
  inum : w.inum = i
  ref : w.ref = v.ref + 1
  used : 0 < v.ref → w = { v with ref := v.ref + 1 }
  unused : v.ref = 0 → w.valid = false

theorem iget_run (hroom : ∃ jp, (s.inode jp).ref = 0) (i : Nat) :
    ∃ ip v, Returns (iget i) s ip (s.withInode ip v) ∧ Referenced i (s.inode ip) v := by
  cases hfind : s.find i with
  | some ip =>
    obtain ⟨hpos, hinum⟩ : 0 < (s.inode ip).ref ∧ (s.inode ip).inum = i := by
      simpa using List.find?_some hfind
    refine ⟨ip, { s.inode ip with ref := (s.inode ip).ref + 1 }, returns_get.bind ?_, hinum, rfl,
      fun _ => rfl, fun hz => absurd hz (Nat.pos_iff_ne_zero.mp hpos)⟩
    rw [hfind]
    exact returns_modify.bind returns_pure
  | none =>
    cases hempty : s.empty with
    | none =>
      obtain ⟨jp, hjp⟩ := hroom
      exact absurd hjp (by simpa using List.find?_eq_none.mp hempty jp (List.mem_finRange jp))
    | some ip =>
      have hzero : (s.inode ip).ref = 0 := by simpa using List.find?_some hempty
      refine ⟨ip, { s.inode ip with inum := i, ref := 1, valid := false }, returns_get.bind ?_, rfl,
        by rw [hzero], fun hpos => absurd hzero (Nat.pos_iff_ne_zero.mp hpos), fun _ => rfl⟩
      rw [hfind]
      dsimp only
      rw [hempty]
      exact returns_modify.bind returns_pure

theorem Referenced.iput {v : Inode} (h : Referenced i (s.inode ip) v) :
    ∃ u, Returns (iput ip) (s.withInode ip v) ⟨⟩ u ∧ s.Unchanged u := by
  have hkeep : ¬ (v.ref = 1 ∧ v.valid ∧ v.din.nlink = 0) := by
    rintro ⟨hone, hvalid, _⟩
    have href := h.ref
    rw [h.unused (by omega)] at hvalid
    cases hvalid
  have hrun : Returns (Xv6.iput ip) (s.withInode ip v) ⟨⟩
    (s.withInode ip { v with ref := v.ref - 1 }) := by
    refine returns_get.bind ?_
    rw [withInode_same, if_neg hkeep, ← withInode_twice v { v with ref := v.ref - 1 }]
    refine returns_get.bind ?_
    rw [withInode_same]
    exact returns_modify
  refine ⟨_, hrun, rfl, rfl, fun jp => ?_, fun jp hjp => ?_⟩
  · by_cases hj : jp = ip
    · rw [hj, withInode_same, h.ref, Nat.add_sub_cancel]
    · rw [withInode_other _ hj]
  · by_cases hj : jp = ip
    · rw [hj] at hjp ⊢
      rw [withInode_same, h.used hjp, Nat.add_sub_cancel]
    · rw [withInode_other _ hj]

theorem dirlinkScan_find (h : s.DirOk i) (hdin : (s.inode dp).din = s.dinode i) (last : Nat)
    (offs : List Nat) (hoffs : ∀ off ∈ offs, off ∈ direntOffsets (s.contents i).length) :
    Returns (dirlinkScan dp last offs) s
      ((offs.find? fun off => direntInum (direntAt (s.contents i) off) = 0).getD last) s := by
  induction offs with
  | nil => exact returns_pure
  | cons off offs ih =>
    refine (readDirent_entry h hdin (hoffs off List.mem_cons_self) _).bind ?_
    rw [List.find?_cons]
    by_cases hzero : direntInum (direntAt (s.contents i) off) = 0
    · rw [if_pos hzero, decide_eq_true hzero]
      exact returns_pure
    · rw [if_neg hzero, decide_eq_false hzero]
      exact ih fun o ho => hoffs o (List.mem_cons_of_mem _ ho)

theorem Fs.Sound.dirOk (hs : s.Sound) (halloc : s.Allocated i) (htype : (s.dinode i).type = tDir)
    (hwhole : (s.dinode i).size.toNat % 16 = 0) : s.DirOk i :=
  ⟨hs.fileOk halloc, htype, hwhole⟩

theorem dirlookup_bound (h : s.DirOk i) (hdin : (s.inode dp).din = s.dinode i)
    (hroom : ∃ jp, (s.inode jp).ref = 0) :
    ∃ r t, Returns (dirlookup dp name) s r t ∧ t.disk = s.disk ∧
      r.map (fun p => (t.inode p.1).inum) = binding (s.contents i) name := by
  have hfind := dirlookup_find h hdin name
  cases he : findEntry (s.contents i) name with
  | none =>
    rw [he] at hfind
    refine ⟨none, s, hfind, rfl, ?_⟩
    rw [binding, he]
    rfl
  | some off =>
    rw [he] at hfind
    obtain ⟨ip, v, hget, hv⟩ := iget_run hroom (direntInum (direntAt (s.contents i) off))
    refine ⟨some (ip, off), _, hfind.trans (hget.bind returns_pure), rfl, ?_⟩
    rw [binding, he, Option.map_some, Option.map_some, withInode_same, hv.inum]

theorem dirlink_bound (h : s.DirOk i) (hdin : (s.inode dp).din = s.dinode i)
    (hroom : ∃ jp, (s.inode jp).ref = 0) (hb : binding (s.contents i) name ≠ none) :
    ∃ t, Returns (dirlink dp name inum) s false t ∧ s.Unchanged t := by
  have hfind := dirlookup_find h hdin name
  cases he : findEntry (s.contents i) name with
  | none => exact absurd (by rw [binding, he]; rfl) hb
  | some off =>
    rw [he] at hfind
    obtain ⟨ip, v, hget, hv⟩ := iget_run hroom (direntInum (direntAt (s.contents i) off))
    obtain ⟨u, hput, hu⟩ := hv.iput
    have hlook : Returns (dirlookup dp name) s (some (ip, off)) _ :=
      hfind.trans (hget.bind returns_pure)
    exact ⟨u, hlook.bind (hput.bind returns_pure), hu⟩

theorem dirlookup_unbound (h : s.DirOk i) (hdin : (s.inode dp).din = s.dinode i)
    (hb : binding (s.contents i) name = none) : Returns (dirlookup dp name) s none s := by
  have hfind := dirlookup_find h hdin name
  rwa [Option.map_eq_none_iff.mp hb] at hfind

/-- A directory that a process has open; it has whole entries, and no name twice. -/
structure Fs.OpenDir (s : Fs) (dp : InodeSlot) : Prop extends s.Open dp where
  type : (s.inode dp).din.type = tDir
  whole : (s.contents (s.inode dp).inum).length % 16 = 0
  single : NoDuplicates (s.contents (s.inode dp).inum)

theorem Fs.OpenDir.dirOk (h : s.OpenDir dp) : s.DirOk (s.inode dp).inum := by
  obtain ⟨halloc, hdin⟩ := h.copy
  exact h.sound.dirOk halloc (hdin ▸ h.type) (s.contents_length _ ▸ h.whole)

theorem Wrote.openDir {off : Nat} {de : List Byte} (hw : Wrote dp off de s u) (h : s.OpenDir dp)
    (hoff : off % 16 = 0) (hle : off ≤ (s.contents (s.inode dp).inum).length) (hde : de.length = 16)
    (hdup : NoDuplicates (u.contents (s.inode dp).inum)) : u.OpenDir dp := by
  obtain ⟨a, ha⟩ := hw.slot
  have hinum : (u.inode dp).inum = (s.inode dp).inum := by rw [ha]
  refine ⟨hw.opened, by rw [ha]; exact h.type, ?_, hinum ▸ hdup⟩
  have hwhole := h.whole
  rw [hinum, hw.contents, splice_length hle, hde]
  omega

theorem dirlink_adds {str : List Byte} (h : s.OpenDir dp) (hpos : 0 < inum) (hsmall : inum < 2 ^ 16)
    (hb : binding (s.contents (s.inode dp).inum) (nameOf str) = none)
    (hfits : freeSlot (s.contents (s.inode dp).inum) + 16 ≤ MAXFILE * BSIZE)
    (hfree : (missing s.disk s.files
      (touched (s.inode dp).inum (freeSlot (s.contents (s.inode dp).inum)) 16)).card ≤
      (freeBlocks s.sb s.disk).card) :
    ∃ t, Returns (dirlink dp (nameOf str) inum) s true t ∧
      Wrote dp (freeSlot (s.contents (s.inode dp).inum)) (encodeDirent inum (nameOf str)) s t ∧ t.OpenDir dp ∧
      ∀ n, binding (t.contents (s.inode dp).inum) n =
        if n = nameOf str then some inum else binding (s.contents (s.inode dp).inum) n := by
  obtain ⟨_, hdin⟩ := h.copy
  have hsize : (s.inode dp).din.size.toNat = (s.contents (s.inode dp).inum).length := by
    rw [hdin, s.contents_length]
  have hwhole := h.whole
  have hlook : Returns (dirlookup dp (nameOf str)) s none s := dirlookup_unbound h.dirOk hdin hb
  have hscan := dirlinkScan_find h.dirOk hdin (s.contents (s.inode dp).inum).length _ fun _ ho => ho
  have hend : 16 * (((s.contents (s.inode dp).inum).length + 15) / 16) =
      (s.contents (s.inode dp).inum).length := by
    omega
  have htype : (s.inode dp).din.type ≠ tDev := by
    rw [h.type]
    decide
  have hlen : (encodeDirent inum (nameOf str)).length = 16 := encodeDirent_length ..
  obtain ⟨hoff, hle⟩ := freeSlot_le hwhole
  have hok : ¬ Refused (s.inode dp).din.size.toNat (freeSlot (s.contents (s.inode dp).inum))
      (encodeDirent inum (nameOf str)).length := by
    have hbig : MAXFILE * BSIZE < 2 ^ 32 := by decide
    rw [hsize, hlen]
    simp only [Refused]
    omega
  rw [← hlen] at hfree
  obtain ⟨t, hrun, ht⟩ := writei_run h.toOpen htype hok hfree
  have hsplice := binding_splice hwhole h.single hoff hle hlen (fun _ => direntName_nameOf inum str)
    (fun n j h => absurd h (freeSlot_unused hwhole)) fun o j _ => binding_eq_none.mp hb o j
  rw [direntInum_encode hsmall, if_neg (Nat.pos_iff_ne_zero.mp hpos), ← ht.contents] at hsplice
  refine ⟨t, hlook.bind (returns_get.bind ?_), ht, ht.openDir h hoff hle hlen hsplice.1, hsplice.2⟩
  dsimp only
  rw [hsize, hend]
  refine hscan.bind (hrun.bind ?_)
  rw [if_pos (congrArg some hlen)]
  exact returns_pure

theorem dirlink_not_refused (hlook : Returns (dirlookup dp name) s none s) (inum : Nat) :
    (dirlink dp name inum).wp (fun r _ => r = true) (fun _ _ => True) s := by
  refine wp_bind.mpr ((wp_ok hlook).mpr (wp_bind.mpr (wp_get.mpr ?_)))
  dsimp only
  refine wp_bind.mpr (wp_imp (wp_true s) fun off t _ =>
    wp_bind.mpr (wp_imp (wp_true t) fun n u _ => ?_))
  exact wp_ite (fun _ => rfl) fun _ => trivial

theorem clear_removes {off : Nat} (h : s.OpenDir dp)
    (hfind : findEntry (s.contents (s.inode dp).inum) name = some off) :
    ∃ t, Returns (writei dp (List.replicate 16 0) off) s (some 16) t ∧
      Wrote dp off (List.replicate 16 0) s t ∧
      t.OpenDir dp ∧ ∀ n, binding (t.contents (s.inode dp).inum) n =
        if n = name then none else binding (s.contents (s.inode dp).inum) n := by
  obtain ⟨halloc, hdin⟩ := h.copy
  have htype : (s.inode dp).din.type ≠ tDev := by
    rw [h.type]
    decide
  have hwhole := h.whole
  have hentry := findEntry_some hfind
  obtain ⟨hoff, hlt⟩ := (mem_direntOffsets hwhole).mp hentry.mem
  have hin : off + 16 ≤ (s.inode dp).din.size.toNat := by
    rw [hdin, ← s.contents_length]
    omega
  have hmax := h.dirOk.file.size
  rw [← hdin] at hmax
  have hok : ¬ Refused (s.inode dp).din.size.toNat off (List.replicate 16 (0 : Byte)).length := by
    have hbig : MAXFILE * BSIZE < 2 ^ 32 := by decide
    simp only [Refused, List.length_replicate]
    omega
  have hnone : missing s.disk s.files
      (touched (s.inode dp).inum off (List.replicate 16 (0 : Byte)).length) = ∅ := by
    refine Finset.filter_eq_empty_iff.mpr fun r hr => h.sound.touched_ne hr ?_
    rw [halloc.files, ← hdin, List.length_replicate]
    exact hin
  obtain ⟨t, hrun, ht⟩ := writei_run h.toOpen htype hok (by rw [hnone]; exact Nat.zero_le _)
  have hzero : direntInum (List.replicate 16 0) = 0 := rfl
  have hsplice := binding_splice hwhole h.single hoff hlt.le List.length_replicate
    (fun h => absurd hzero h)
    (fun n j he => he.named.symm.trans hentry.named) fun o j hne he =>
      hne (h.single o off _ j _ he hentry)
  rw [hzero, if_pos rfl, ← ht.contents] at hsplice
  exact ⟨t, hrun, ht, ht.openDir h hoff hlt.le List.length_replicate hsplice.1, hsplice.2⟩

end Calls

/-- A directory is a finite map from names to inode numbers: dirlookup looks a name up, dirlink adds
a binding, and what unlink writes removes one. -/
theorem directory_map (s : Fs) (dp : InodeSlot) (h : s.OpenDir dp)
    (hroom : ∃ jp, (s.inode jp).ref = 0) (c : List Byte) (hc : s.contents (s.inode dp).inum = c)
    (str : List Byte) :
    (∃ r t, Returns (Dir.dirlookup dp str) s r t ∧ t.disk = s.disk ∧
      r.map (fun p => (t.inode p.1).inum) = binding c (nameOf str)) ∧
    (∀ inum, 0 < inum → inum < 2 ^ 16 →
      ((∃ t, Returns (Dir.dirlink dp str inum) s false t ∧ s.Unchanged t) ↔ binding c (nameOf str) ≠ none) ∧
      (binding c (nameOf str) = none → freeSlot c + 16 ≤ MAXFILE * BSIZE →
        (missing s.disk s.files (touched (s.inode dp).inum (freeSlot c) 16)).card ≤ (freeBlocks s.sb s.disk).card →
        ∃ t, Returns (Dir.dirlink dp str inum) s true t ∧ t.OpenDir dp ∧
          t.contents (s.inode dp).inum = splice c (freeSlot c) (encodeDirent inum (nameOf str)) ∧
          ∀ n, binding (t.contents (s.inode dp).inum) n = if n = nameOf str then some inum else binding c n)) ∧
    ∀ off, findEntry c (nameOf str) = some off →
      ∃ t, Returns (writei dp (List.replicate 16 0) off) s (some 16) t ∧ t.OpenDir dp ∧
        ∀ n, binding (t.contents (s.inode dp).inum) n = if n = nameOf str then none else binding c n := by
  obtain ⟨_, hdin⟩ := h.copy
  rw [Dir.dirlookup_eq]
  simp only [Dir.dirlink_eq]
  subst hc
  refine ⟨dirlookup_bound h.dirOk hdin hroom,
    fun inum hpos hsmall => ⟨⟨?_, fun hb => ?_⟩, fun hb hfits hfree => ?_⟩,
    fun off hoff => ?_⟩
  · rintro ⟨t, hrun, _⟩ hb
    have htrue := dirlink_not_refused (dirlookup_unbound h.dirOk hdin hb) inum
    rw [wp_ok hrun] at htrue
    cases htrue
  · exact dirlink_bound h.dirOk hdin hroom hb
  · obtain ⟨t, hrun, hw, ht, hbind⟩ := dirlink_adds h hpos hsmall hb hfits hfree
    exact ⟨t, hrun, ht, hw.contents, hbind⟩
  · obtain ⟨t, hrun, _, ht, hbind⟩ := clear_removes h hoff
    exact ⟨t, hrun, ht, hbind⟩

theorem oneInode_openDir : oneInodeFs.OpenDir 0 :=
  have hc : oneInodeFs.contents (oneInodeFs.inode 0).inum = [] := oneInode_contents
  ⟨oneInode_open, rfl, by rw [hc]; rfl, fun _ _ _ _ _ h => by rw [hc] at h; cases h.mem⟩

theorem directory_map_first : ∃ t, Returns (Dir.dirlink 0 [97, 98] 1) oneInodeFs true t ∧
    ∀ n, binding (t.contents 1) n = if n = [97, 98] then some 1 else none := by
  have hnone : ∀ n, binding [] n = none := fun _ => rfl
  obtain ⟨_, hlink, _⟩ := directory_map oneInodeFs 0 oneInode_openDir ⟨1, rfl⟩ [] oneInode_contents
    [97, 98]
  obtain ⟨t, hrun, _, _, hbind⟩ := (hlink 1 (by decide) (by decide)).2 (hnone _) (by decide)
    (oneInode_space (by decide) _ _)
  refine ⟨t, hrun, fun n => (hbind n).trans ?_⟩
  rw [hnone]
  rfl

end Xv6
