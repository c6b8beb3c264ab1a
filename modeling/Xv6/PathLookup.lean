import Xv6.PathElements
import Xv6.FsRefs

namespace Xv6

open Bytes Prog

/-- The inode has a name. -/
def Fs.Named (s : Fs) (i : Nat) : Prop := s.Allocated i ∧ (s.dinode i).nlink ≠ 0

/-- The directories on the disk, and the cache with what it has of the inodes. -/
structure Fs.Tree (s : Fs) : Prop where
  block : ∀ i < s.sb.ninodes, s.sb.iblock i < FSSIZE
  root : s.Named ROOTINO
  dir : ∀ i, s.Allocated i → (s.dinode i).type = tDir → s.DirOk i
  entry : ∀ i name j, s.Allocated i → (s.dinode i).type = tDir →
    binding (s.contents i) name = some j → s.Named j
  cached : ∀ ip, 0 < (s.inode ip).ref → s.Allocated (s.inode ip).inum
  coherent : ∀ ip, 0 < (s.inode ip).ref → (s.inode ip).valid = true →
    (s.inode ip).din = s.dinode (s.inode ip).inum

/-- The names are looked up one after another. -/
def Fs.resolve (s : Fs) : Nat → List Name → Option Nat
  | i, [] => some i
  | i, name :: names =>
    if (s.dinode i).type = tDir then (binding (s.contents i) name).bind fun j => s.resolve j names
      else none

/-- The state t on the way through the tree of s. -/
structure Fs.Walks (s : Fs) (R : InodeSlot → Nat) (K : InodeSlot → Bool) (t : Fs) : Prop where
  refs : t.Refs R K
  disk : t.disk = s.disk
  sb : t.sb = s.sb
  cached : ∀ ip, 0 < R ip → s.Allocated (t.inode ip).inum
  coherent : ∀ ip, 0 < R ip → (t.inode ip).valid = true →
    (t.inode ip).din = s.dinode (t.inode ip).inum

/-- The entries in use keep their inodes. -/
def SameInums (R : InodeSlot → Nat) (t u : Fs) : Prop :=
  ∀ jp, 0 < R jp → (u.inode jp).inum = (t.inode jp).inum

variable {s t u : Fs} {R : InodeSlot → Nat} {K : InodeSlot → Bool} {ip jp : InodeSlot} {i : Nat}

theorem Fs.Walks.dinode (h : s.Walks R K t) (i : Nat) : t.dinode i = s.dinode i := by
  rw [Fs.dinode, h.disk, h.sb, Fs.dinode]

theorem Fs.Walks.contents (h : s.Walks R K t) (i : Nat) : t.contents i = s.contents i := by
  rw [Fs.contents, h.disk, funext h.dinode, Fs.contents]

theorem Fs.Walks.dirOk (h : s.Walks R K t) (hdir : s.DirOk i) : t.DirOk i := by
  have hdin := funext h.dinode
  refine ⟨?_, ?_, ?_⟩
  · rw [h.disk, hdin]
    exact hdir.file
  · rw [hdin]
    exact hdir.type
  · rw [hdin]
    exact hdir.whole

theorem Fs.Walks.set {R' : InodeSlot → Nat} {K' : InodeSlot → Bool} {v : Inode} (h : s.Walks R K t)
    (hrefs : { t with inode := Function.update t.inode ip v }.Refs R' K')
    (hR : ∀ jp, jp ≠ ip → R' jp = R jp)
    (hcached : 0 < R' ip → s.Allocated v.inum)
      (hcoherent : 0 < R' ip → v.valid = true → v.din = s.dinode v.inum) :
    s.Walks R' K' { t with inode := Function.update t.inode ip v } := by
  refine ⟨hrefs, h.disk, h.sb, fun jp hjp => ?_, fun jp hjp hvalid => ?_⟩
  · by_cases hj : jp = ip
    · subst hj
      simpa using hcached hjp
    · rw [hR jp hj] at hjp
      simpa [hj] using h.cached jp hjp
  · by_cases hj : jp = ip
    · subst hj
      simp only [Function.update_self] at hvalid ⊢
      exact hcoherent hjp hvalid
    · rw [hR jp hj] at hjp
      simp only [Function.update_of_ne hj] at hvalid ⊢
      exact h.coherent jp hjp hvalid

theorem plus_of_ne (h : jp ≠ ip) : plus R ip jp = R jp := by
  simp [plus, h]

theorem exists_free (h : ∃ a b, a ≠ b ∧ R a = 0 ∧ R b = 0) (ip : InodeSlot) :
    ∃ jp, plus R ip jp = 0 := by
  obtain ⟨a, b, hab, ha, hb⟩ := h
  by_cases hai : a = ip
  · exact ⟨b, (plus_of_ne fun hbi => hab (hai.trans hbi.symm)).trans hb⟩
  · exact ⟨a, (plus_of_ne hai).trans ha⟩

theorem sameInums_set {v : Inode} (h : 0 < R ip → v.inum = (t.inode ip).inum) :
    SameInums R t { t with inode := Function.update t.inode ip v } := by
  intro jp hjp
  by_cases hj : jp = ip
  · subst hj
    simpa using h hjp
  · simp [hj]

theorem idup_walks (h : s.Walks R K t) (hp : 0 < R ip) :
    ∃ u, Returns (idup ip) t ip u ∧ s.Walks (plus R ip) K u ∧ SameInums R t u := by
  have hrefs := idup_refs h.refs hp
  have hrun : Returns (idup ip) t ip
      { t with inode := Function.update t.inode ip { t.inode ip with ref := (t.inode ip).ref + 1 } } :=
    returns_get.bind (returns_modify.bind returns_pure)
  rw [wp_ok hrun] at hrefs
  refine ⟨_, hrun, ?_, sameInums_set fun _ => rfl⟩
  exact h.set hrefs.2 (fun jp hj => plus_of_ne hj) (fun _ => h.cached ip hp) fun _ hvalid =>
    h.coherent ip hp hvalid

theorem iget_walks (h : s.Walks R K t) (hi : s.Allocated i) (hroom : ∃ jp, R jp = 0) :
    ∃ ip u, Returns (iget i) t ip u ∧ s.Walks (plus R ip) K u ∧ (u.inode ip).inum = i ∧
      SameInums R t u := by
  have hrefs : (iget i).wp _ _ t := iget_refs h.refs
  cases hfind : t.find i with
  | some ip =>
    have hip : 0 < (t.inode ip).ref ∧ (t.inode ip).inum = i := by simpa using List.find?_some hfind
    have hpos : 0 < R ip := h.refs.ref ip ▸ hip.1
    have hrun : Returns (iget i) t ip
        { t with inode := Function.update t.inode ip { t.inode ip with ref := (t.inode ip).ref + 1 } } := by
      refine returns_get.bind ?_
      rw [hfind]
      exact returns_modify.bind returns_pure
    rw [wp_ok hrun] at hrefs
    refine ⟨ip, _, hrun, ?_, by simpa using hip.2, sameInums_set fun _ => rfl⟩
    exact h.set hrefs (fun jp hj => plus_of_ne hj) (fun _ => h.cached ip hpos) fun _ hvalid =>
      h.coherent ip hpos hvalid
  | none =>
    obtain ⟨jp, hjp⟩ := hroom
    obtain ⟨ip, hempty⟩ : ∃ ip, t.empty = some ip := by
      refine Option.isSome_iff_exists.mp (List.find?_isSome.mpr ⟨jp, List.mem_finRange jp, ?_⟩)
      simpa [h.refs.ref jp] using hjp
    have hzero : (t.inode ip).ref = 0 := by simpa using List.find?_some hempty
    have hrun : Returns (iget i) t ip
        { t with inode := Function.update t.inode ip { t.inode ip with inum := i, ref := 1, valid := false } } := by
      refine returns_get.bind ?_
      rw [hfind]
      dsimp only
      rw [hempty]
      exact returns_modify.bind returns_pure
    rw [wp_ok hrun] at hrefs
    refine ⟨ip, _, hrun, ?_, by simp, sameInums_set fun hpos => ?_⟩
    · exact h.set hrefs (fun jp hj => plus_of_ne hj) (fun _ => hi) fun _ hvalid => by cases hvalid
    · rw [← h.refs.ref ip, hzero] at hpos
      exact absurd hpos (Nat.lt_irrefl 0)

theorem ilock_walks (h : s.Walks R K t) (htree : s.Tree) (hp : 0 < R ip) (hk : K ip = false) :
    ∃ u, Returns (ilock ip) t ⟨⟩ u ∧ s.Walks R (lockAt K ip) u ∧ (u.inode ip).valid = true ∧
      SameInums R t u := by
  have hrefs : (ilock ip).wp _ _ t := ilock_refs h.refs
  obtain ⟨hlt, htype⟩ := h.cached ip hp
  have hblock := htree.block _ hlt
  have href : ¬ (t.inode ip).ref < 1 := by
    rw [h.refs.ref ip]
    omega
  have hfree : ¬ (t.inode ip).locked = true := by
    rw [h.refs.locked ip, hk]
    decide
  by_cases hvalid : (t.inode ip).valid = true
  · have hrun : Returns (ilock ip) t ⟨⟩
        { t with inode := Function.update t.inode ip { t.inode ip with locked := true } } := by
      refine returns_get.bind ?_
      rw [if_neg href, if_neg hfree]
      refine returns_modify.bind ?_
      rw [if_neg (by simp [hvalid])]
      exact returns_pure
    rw [wp_ok hrun] at hrefs
    refine ⟨_, hrun, ?_, by simpa using hvalid, sameInums_set fun _ => rfl⟩
    exact h.set hrefs.2.2 (fun _ _ => rfl) (fun _ => h.cached ip hp) fun _ hv => h.coherent ip hp hv
  · have hdin : getDinode (t.disk (t.sb.iblock (t.inode ip).inum)) (t.inode ip).inum =
        s.dinode (t.inode ip).inum := by
      rw [h.disk, h.sb]
      rfl
    have hrun : Returns (ilock ip) t ⟨⟩
        { t with
          inode := Function.update t.inode ip
            { t.inode ip with locked := true, valid := true, din := s.dinode (t.inode ip).inum } } := by
      refine returns_get.bind ?_
      rw [if_neg href, if_neg hfree]
      refine returns_modify.bind ?_
      rw [if_pos (by simpa using hvalid)]
      refine (readBlock_ok (by rw [h.sb]; exact hblock)).bind ?_
      dsimp only
      rw [hdin]
      refine returns_modify.bind ?_
      rw [if_neg htype]
      simp only [Function.update_idem]
      exact returns_pure
    rw [wp_ok hrun] at hrefs
    refine ⟨_, hrun, ?_, by simp, sameInums_set fun _ => rfl⟩
    exact h.set hrefs.2.2 (fun _ _ => rfl) (fun _ => h.cached ip hp) fun _ _ => rfl

theorem iunlock_walks (h : s.Walks R (lockAt K ip) t) (hp : 0 < R ip) (hk : K ip = false) :
    ∃ u, Returns (iunlock ip) t ⟨⟩ u ∧ s.Walks R K u ∧ (u.inode ip).valid = (t.inode ip).valid ∧
      SameInums R t u := by
  have hrefs := iunlock_refs h.refs hk
  have hlocked : (t.inode ip).locked = true := by
    rw [h.refs.locked ip]
    simp [lockAt]
  have hrun : Returns (iunlock ip) t ⟨⟩
      { t with inode := Function.update t.inode ip { t.inode ip with locked := false } } := by
    refine returns_get.bind ?_
    rw [if_neg (by rw [h.refs.ref ip, hlocked]; simp; omega)]
    exact returns_modify
  rw [wp_ok hrun] at hrefs
  refine ⟨_, hrun, ?_, by simp, sameInums_set fun _ => rfl⟩
  exact h.set hrefs (fun _ _ => rfl) (fun _ => h.cached ip hp) fun _ hv => h.coherent ip hp hv

/-- A reference is given back that is not the last one, or the inode has a name. -/
theorem iput_walks (h : s.Walks (plus R ip) K t)
    (hkeep : 0 < R ip ∨ (s.dinode (t.inode ip).inum).nlink ≠ 0) :
    ∃ u, Returns (iput ip) t ⟨⟩ u ∧ s.Walks R K u ∧ SameInums R t u := by
  have hrefs := iput_refs h.refs
  have hpos : 0 < plus R ip ip := plus_pos R ip
  have hstays : ¬ ((t.inode ip).ref = 1 ∧ (t.inode ip).valid = true ∧
      (t.inode ip).din.nlink = 0) := by
    rintro ⟨hone, hvalid, hzero⟩
    rw [h.refs.ref ip, plus, Function.update_self] at hone
    rw [h.coherent ip hpos hvalid] at hzero
    rcases hkeep with hr | hn
    · omega
    · exact hn hzero
  have hrun : Returns (iput ip) t ⟨⟩
      { t with inode := Function.update t.inode ip { t.inode ip with ref := (t.inode ip).ref - 1 } } := by
    refine returns_get.bind ?_
    rw [if_neg hstays]
    exact returns_pure.bind (returns_get.bind returns_modify)
  rw [wp_ok hrun] at hrefs
  refine ⟨_, hrun, ?_, sameInums_set fun _ => rfl⟩
  exact h.set hrefs (fun jp hj => (plus_of_ne hj).symm) (fun _ => h.cached ip hpos) fun _ hv =>
    h.coherent ip hpos hv

theorem iunlockput_walks (h : s.Walks (plus R ip) (lockAt K ip) t) (hk : K ip = false)
    (hkeep : 0 < R ip ∨ (s.dinode (t.inode ip).inum).nlink ≠ 0) :
    ∃ u, Returns (iunlockput ip) t ⟨⟩ u ∧ s.Walks R K u ∧ SameInums R t u := by
  have hpos : 0 < plus R ip ip := plus_pos R ip
  obtain ⟨t', hunlock, ht', _, hsame⟩ := iunlock_walks h hpos hk
  obtain ⟨u, hput, hu, hsame'⟩ := iput_walks ht' (by rw [hsame ip hpos]; exact hkeep)
  refine ⟨u, hunlock.bind hput, hu, fun jp hjp => ?_⟩
  rw [hsame' jp hjp, hsame jp (Nat.lt_of_lt_of_le hjp (le_plus R ip jp))]

theorem dirlookup_none {name : Name} (h : s.Walks R K t) (hp : 0 < R ip)
    (hvalid : (t.inode ip).valid = true) (hdir : s.DirOk (t.inode ip).inum)
    (hnone : binding (s.contents (t.inode ip).inum) name = none) :
    Returns (dirlookup ip name) t none t := by
  have hdin := (h.coherent ip hp hvalid).trans (h.dinode _).symm
  rw [binding, Option.map_eq_none_iff] at hnone
  rw [Returns, dirlookup_find (h.dirOk hdir) hdin, h.contents, hnone]
  rfl

theorem dirlookup_some {name : Name} {j : Nat} (h : s.Walks R K t) (hp : 0 < R ip)
    (hvalid : (t.inode ip).valid = true) (hdir : s.DirOk (t.inode ip).inum)
    (hsome : binding (s.contents (t.inode ip).inum) name = some j) (hj : s.Allocated j)
    (hroom : ∃ jp, R jp = 0) :
    ∃ jp off u, Returns (dirlookup ip name) t (some (jp, off)) u ∧ s.Walks (plus R jp) K u ∧
      (u.inode jp).inum = j ∧
      SameInums R t u := by
  have hdin := (h.coherent ip hp hvalid).trans (h.dinode _).symm
  obtain ⟨off, hfind, rfl⟩ := Option.map_eq_some_iff.mp hsome
  obtain ⟨jp, u, hget, hu, hinum, hsame⟩ := iget_walks h hj hroom
  refine ⟨jp, off, u, ?_, hu, hinum, hsame⟩
  rw [Returns, dirlookup_find (h.dirOk hdir) hdin, h.contents, hfind]
  exact hget.bind returns_pure

/-- What namex finds, as an inode number and the last name. -/
def Fs.walk (s : Fs) (parent : Bool) : Nat → List Name → Option (Nat × Name)
  | i, [] => if parent then none else some (i, [])
  | i, name :: names =>
    if (s.dinode i).type ≠ tDir then none
    else if parent ∧ names = [] then some (i, name)
    else (binding (s.contents i) name).bind fun j => s.walk parent j names

theorem namexLoop_walks (parent : Bool) (names : List Name) (htree : s.Tree)
    (hK : ∀ jp, K jp = false) (hroom : ∃ a b, a ≠ b ∧ R a = 0 ∧ R b = 0)
    (h : s.Walks (plus R ip) K t) (hkeep : 0 < R ip ∨ (s.dinode (t.inode ip).inum).nlink ≠ 0) :
    ∃ r u, Returns (namexLoop parent ip names) t r u ∧ s.Walks (plusOpt R (r.map Prod.fst)) K u ∧
      r.map (fun p => ((u.inode p.1).inum, p.2)) = s.walk parent (t.inode ip).inum names ∧
      (parent = true → ∀ p, r = some p → (u.inode p.1).valid = true) := by
  induction names generalizing t ip with
  | nil =>
    cases parent with
    | false => exact ⟨some (ip, []), t, returns_pure, h, rfl, fun hf => absurd hf (by decide)⟩
    | true =>
      obtain ⟨u, hput, hu, _⟩ := iput_walks h hkeep
      exact ⟨none, u, hput.bind returns_pure, hu, rfl, fun _ _ hp => absurd hp (Option.some_ne_none _).symm⟩
  | cons name names ih =>
    have hpos : 0 < plus R ip ip := plus_pos R ip
    obtain ⟨t₁, hlock, h₁, hvalid, hsame₁⟩ := ilock_walks h htree hpos (hK ip)
    have hinum := hsame₁ ip hpos
    have hdin := h₁.coherent ip hpos hvalid
    rw [← hinum] at hkeep ⊢
    have halloc := h₁.cached ip hpos
    have hfail : ∃ u, Returns (do iunlockput ip; return none : FsM (Option (InodeSlot × Name))) t₁
        none u ∧
        s.Walks R K u := by
      obtain ⟨u, hput, hu, _⟩ := iunlockput_walks h₁ (hK ip) hkeep
      exact ⟨u, hput.bind returns_pure, hu⟩
    rw [namexLoop]
    by_cases htype : (s.dinode (t₁.inode ip).inum).type ≠ tDir
    · obtain ⟨u, hrun, hu⟩ := hfail
      refine ⟨none, u, hlock.bind (returns_get.bind ?_), hu, by rw [Fs.walk, if_pos htype]; rfl,
        fun _ _ hp => ?_⟩
      · rw [hdin, if_pos htype]
        exact hrun
      · cases hp
    · have hdir := htree.dir _ halloc (not_not.mp htype)
      by_cases hlast : parent ∧ names = []
      · obtain ⟨u, hunlock, hu, hv, hsame⟩ := iunlock_walks h₁ hpos (hK ip)
        refine ⟨some (ip, name), u, hlock.bind (returns_get.bind ?_), hu, ?_, fun _ p hp => ?_⟩
        · rw [hdin, if_neg htype, if_pos hlast]
          exact hunlock.bind returns_pure
        · rw [Fs.walk, if_neg htype, if_pos hlast, Option.map_some, hsame ip hpos]
        · obtain rfl := Option.some.inj hp
          exact hv.trans hvalid
      · have hwalk : s.walk parent (t₁.inode ip).inum (name :: names) =
            (binding (s.contents (t₁.inode ip).inum) name).bind fun j => s.walk parent j names := by
          rw [Fs.walk, if_neg htype, if_neg hlast]
        rw [hwalk]
        cases hbind : binding (s.contents (t₁.inode ip).inum) name with
        | none =>
          obtain ⟨u, hrun, hu⟩ := hfail
          refine ⟨none, u, hlock.bind (returns_get.bind ?_), hu, rfl, fun _ _ hp => ?_⟩
          · rw [hdin, if_neg htype, if_neg hlast]
            exact (dirlookup_none h₁ hpos hvalid hdir hbind).bind hrun
          · cases hp
        | some j =>
          have hnamed := htree.entry _ name j halloc (not_not.mp htype) hbind
          obtain ⟨jp, off, t₂, hlookup, h₂, hj, hsame₂⟩ := dirlookup_some h₁ hpos hvalid hdir hbind hnamed.1
            (exists_free hroom ip)
          rw [plus_comm] at h₂
          have hinum₂ : (t₂.inode ip).inum = (t₁.inode ip).inum := hsame₂ ip hpos
          obtain ⟨t₃, hput, h₃, hsame₃⟩ := iunlockput_walks h₂ (hK ip)
            (by rw [hinum₂]; exact hkeep.imp (fun hr => Nat.lt_of_lt_of_le hr (le_plus R jp ip)) id)
          have hj₃ : (t₃.inode jp).inum = j := (hsame₃ jp (plus_pos R jp)).trans hj
          obtain ⟨r, u, hrun, hu, hres, hval⟩ := ih h₃ (.inr (by rw [hj₃]; exact hnamed.2))
          refine ⟨r, u, hlock.bind (returns_get.bind ?_), hu, by rw [hres, hj₃]; rfl, hval⟩
          rw [hdin, if_neg htype, if_neg hlast]
          exact hlookup.bind (hput.bind hrun)

theorem walk_false (names : List Name) (i : Nat) :
    s.walk false i names = (s.resolve i names).map fun j => (j, []) := by
  induction names generalizing i with
  | nil => rfl
  | cons name names ih =>
    by_cases htype : (s.dinode i).type = tDir
    · cases hbind : binding (s.contents i) name with
      | none => simp [Fs.walk, Fs.resolve, htype, hbind]
      | some j => simp [Fs.walk, Fs.resolve, htype, hbind, ih]
    · simp [Fs.walk, Fs.resolve, htype]

theorem walk_true (names : List Name) (name : Name) (i : Nat) : s.walk true i (names ++ [name]) =
    ((s.resolve i names).filter fun j => (s.dinode j).type = tDir).map fun j => (j, name) := by
  induction names generalizing i with
  | nil =>
    by_cases htype : (s.dinode i).type = tDir
    · simp [Fs.walk, Fs.resolve, htype, Option.filter]
    · simp [Fs.walk, Fs.resolve, htype, Option.filter]
  | cons first names ih =>
    by_cases htype : (s.dinode i).type = tDir
    · cases hbind : binding (s.contents i) first with
      | none => simp [Fs.walk, Fs.resolve, htype, hbind]
      | some j => simp [Fs.walk, Fs.resolve, htype, hbind, ih]
    · simp [Fs.walk, Fs.resolve, htype]

theorem resolve_concat (names : List Name) (name : Name) (i : Nat) : s.resolve i (names ++ [name]) =
    ((s.resolve i names).filter fun j => (s.dinode j).type = tDir).bind fun j =>
      binding (s.contents j) name := by
  induction names generalizing i with
  | nil =>
    by_cases htype : (s.dinode i).type = tDir
    · simp [Fs.resolve, htype, Option.filter]
    · simp [Fs.resolve, htype, Option.filter]
  | cons first names ih =>
    by_cases htype : (s.dinode i).type = tDir
    · cases hbind : binding (s.contents i) first with
      | none => simp [Fs.resolve, htype, hbind]
      | some j => simp [Fs.resolve, htype, hbind, ih]
    · simp [Fs.resolve, htype]

/-- Where the lookup of a path starts. -/
def Fs.start (s : Fs) (cwd : InodeSlot) (path : List Byte) : Nat :=
  if path.head? = some slash then ROOTINO else (s.inode cwd).inum

theorem Fs.Tree.walks (h : s.Tree) (hrefs : s.Refs R K) : s.Walks R K s :=
  ⟨hrefs, rfl, rfl, fun ip hip => h.cached ip (hrefs.ref ip ▸ hip),
    fun ip hip => h.coherent ip (hrefs.ref ip ▸ hip)⟩

theorem namex_walks {cwd : InodeSlot} (htree : s.Tree) (hrefs : s.Refs R K)
    (hK : ∀ jp, K jp = false) (hroom : ∃ a b, a ≠ b ∧ R a = 0 ∧ R b = 0) (hcwd : 0 < R cwd)
    (path : List Byte) (parent : Bool) :
    ∃ r u, Returns (namex cwd path parent) s r u ∧ s.Walks (plusOpt R (r.map Prod.fst)) K u ∧
      r.map (fun p => ((u.inode p.1).inum, p.2)) = s.walk parent (s.start cwd path) (components path) ∧
      (parent = true → ∀ p, r = some p → (u.inode p.1).valid = true) := by
  have hwalks := htree.walks hrefs
  rw [← pathElems_eq path.length path (Nat.le_refl _)]
  unfold namex Fs.start
  by_cases hslash : path.head? = some slash
  · have hfree : ∃ a, R a = 0 := by
      obtain ⟨a, _, _, ha, _⟩ := hroom
      exact ⟨a, ha⟩
    obtain ⟨ip, t, hget, ht, hinum, _⟩ := iget_walks hwalks htree.root.1 hfree
    have hkeep : 0 < R ip ∨ (s.dinode (t.inode ip).inum).nlink ≠ 0 := by
      rw [hinum]
      exact .inr htree.root.2
    obtain ⟨r, u, hrun, hu, hres, hval⟩ :=
      namexLoop_walks parent (pathElems path.length path) htree hK hroom ht hkeep
    rw [if_pos hslash, if_pos hslash]
    rw [hinum] at hres
    exact ⟨r, u, hget.bind hrun, hu, hres, hval⟩
  · obtain ⟨t, hdup, ht, hsame⟩ := idup_walks hwalks hcwd
    obtain ⟨r, u, hrun, hu, hres, hval⟩ :=
      namexLoop_walks parent (pathElems path.length path) htree hK hroom ht (.inl hcwd)
    rw [if_neg hslash, if_neg hslash, ← hsame cwd hcwd]
    exact ⟨r, u, hdup.bind hrun, hu, hres, hval⟩

theorem namei_walks {cwd : InodeSlot} (htree : s.Tree) (hrefs : s.Refs R K)
    (hK : ∀ jp, K jp = false) (hroom : ∃ a b, a ≠ b ∧ R a = 0 ∧ R b = 0) (hcwd : 0 < R cwd)
    (path : List Byte) :
    ∃ r u, Returns (namei cwd path) s r u ∧ s.Walks (plusOpt R r) K u ∧
      r.map (fun ip => (u.inode ip).inum) = s.resolve (s.start cwd path) (components path) := by
  obtain ⟨r, u, hrun, hu, hres, _⟩ := namex_walks htree hrefs hK hroom hcwd path false
  refine ⟨r.map Prod.fst, u, hrun.bind returns_pure, hu, ?_⟩
  rw [walk_false] at hres
  have hfst := congrArg (Option.map Prod.fst) hres
  simpa [Option.map_map, Function.comp_def] using hfst

theorem nameiparent_walks {cwd : InodeSlot} (htree : s.Tree) (hrefs : s.Refs R K)
    (hK : ∀ jp, K jp = false) (hroom : ∃ a b, a ≠ b ∧ R a = 0 ∧ R b = 0) (hcwd : 0 < R cwd)
    {path : List Byte} {names : List Name} {name : Name}
    (hpath : components path = names ++ [name]) :
    ∃ r u, Returns (nameiparent cwd path) s r u ∧ s.Walks (plusOpt R (r.map Prod.fst)) K u ∧
      r.map (fun p => ((u.inode p.1).inum, p.2)) =
        ((s.resolve (s.start cwd path) names).filter fun j => (s.dinode j).type = tDir).map (fun j => (j, name)) ∧
      ∀ p, r = some p → (u.inode p.1).valid = true := by
  obtain ⟨r, u, hrun, hu, hres, hval⟩ := namex_walks htree hrefs hK hroom hcwd path true
  rw [hpath, walk_true] at hres
  exact ⟨r, u, hrun, hu, hres, hval rfl⟩

/-- The last element is looked up in the directory that nameiparent returns. -/
theorem dirlookup_nameiparent {cwd dp : InodeSlot} {path : List Byte} {names : List Name}
    {name : Name} {t : Fs} (htree : s.Tree) (hrefs : s.Refs R K) (hK : ∀ jp, K jp = false)
    (hroom : ∃ a b, a ≠ b ∧ R a = 0 ∧ R b = 0) (hcwd : 0 < R cwd)
    (hpath : components path = names ++ [name])
    (hrun : Returns (nameiparent cwd path) s (some (dp, name)) t) :
    ∃ r u, Returns (dirlookup dp name) t r u ∧
      r.map (fun p => (u.inode p.1).inum) = s.resolve (s.start cwd path) (components path) := by
  obtain ⟨r, t', hrun', ht, hres, hval⟩ := nameiparent_walks htree hrefs hK hroom hcwd hpath
  obtain ⟨rfl, rfl⟩ := hrun.unique hrun'
  rw [hpath, resolve_concat]
  obtain ⟨j, hj, heq⟩ := Option.map_eq_some_iff.mp hres.symm
  obtain ⟨hj, hdir⟩ := Option.filter_eq_some_iff.mp hj
  obtain ⟨rfl, _⟩ := Prod.mk.inj heq
  have hpos : 0 < plus R dp dp := plus_pos R dp
  have halloc := ht.cached dp hpos
  have htype : (s.dinode (t.inode dp).inum).type = tDir := by simpa using hdir
  have hok := htree.dir _ halloc htype
  rw [hj]
  simp only [Option.filter, htype, decide_true, if_true, Option.bind_some]
  cases hbind : binding (s.contents (t.inode dp).inum) name with
  | none => exact ⟨none, t, dirlookup_none ht hpos (hval _ rfl) hok hbind, rfl⟩
  | some k =>
    obtain ⟨jp, off, u, hlook, _, hinum, _⟩ :=
      dirlookup_some ht hpos (hval _ rfl) hok hbind (htree.entry _ name k halloc htype hbind).1
        (exists_free hroom dp)
    exact ⟨some (jp, off), u, hlook, congrArg some hinum⟩

/-- The two modes of namex agree with the lookup of the components of a path one after another; of
the reference counts only that of the inode they return changes. -/
theorem path_resolution (s : Fs) (htree : s.Tree) (R : InodeSlot → Nat)
    (hrefs : s.Refs R fun _ => false) (hroom : ∃ a b, a ≠ b ∧ R a = 0 ∧ R b = 0) (cwd : InodeSlot)
    (hcwd : 0 < R cwd) (path : List Byte) :
    pathElems path.length path = components path ∧
      (∃ r t, Returns (namei cwd path) s r t ∧ t.Refs (plusOpt R r) (fun _ => false) ∧
        r.map (fun ip => (t.inode ip).inum) = s.resolve (s.start cwd path) (components path)) ∧
      (components path = [] → ∃ t, Returns (nameiparent cwd path) s none t ∧ t.Refs R fun _ => false) ∧
      ∀ names name, components path = names ++ [name] →
        (∃ r t, Returns (nameiparent cwd path) s r t ∧ t.Refs (plusOpt R (r.map Prod.fst)) fun _ => false) ∧
        ∀ i, (∃ ip t, Returns (namei cwd path) s (some ip) t ∧ (t.inode ip).inum = i) ↔
          ∃ dp t ip off u, Returns (nameiparent cwd path) s (some (dp, name)) t ∧
            Returns (dirlookup dp name) t (some (ip, off)) u ∧ (u.inode ip).inum = i := by
  have hK : ∀ jp : InodeSlot, (fun _ => false : InodeSlot → Bool) jp = false := fun _ => rfl
  obtain ⟨r, t, hrun, ht, hres⟩ := namei_walks htree hrefs hK hroom hcwd path
  refine ⟨pathElems_eq _ path (Nat.le_refl _), ⟨r, t, hrun, ht.refs, hres⟩, fun hnil => ?_,
    fun names name hpath => ?_⟩
  · obtain ⟨r', u, hrun', hu, hres', _⟩ := namex_walks htree hrefs hK hroom hcwd path true
    rw [hnil] at hres'
    obtain rfl := Option.map_eq_none_iff.mp hres'
    exact ⟨u, hrun', hu.refs⟩
  · obtain ⟨p, t', hparent, ht', hdir, _⟩ := nameiparent_walks htree hrefs hK hroom hcwd hpath
    refine ⟨⟨p, t', hparent, ht'.refs⟩, fun i => ⟨?_, ?_⟩⟩
    · rintro ⟨ip, u, hnamei, hinum⟩
      obtain ⟨rfl, rfl⟩ := hrun.unique hnamei
      rw [hpath, resolve_concat] at hres
      obtain ⟨j, hj, _⟩ := Option.bind_eq_some_iff.mp hres.symm
      rw [hj] at hdir
      obtain ⟨⟨dp, last⟩, rfl, heq⟩ := Option.map_eq_some_iff.mp hdir
      obtain ⟨_, rfl⟩ := Prod.mk.inj heq
      obtain ⟨r', u', hlook, hres'⟩ := dirlookup_nameiparent htree hrefs hK hroom hcwd hpath hparent
      rw [hpath, resolve_concat, ← hres] at hres'
      obtain ⟨⟨jp, off⟩, rfl, hjp⟩ := Option.map_eq_some_iff.mp hres'
      exact ⟨dp, t', jp, off, u', hparent, hlook, hjp.trans hinum⟩
    · rintro ⟨dp, u, jp, off, u', hparent', hlook, hinum⟩
      obtain ⟨r', v, hlook', hres'⟩ := dirlookup_nameiparent htree hrefs hK hroom hcwd hpath hparent'
      obtain ⟨rfl, rfl⟩ := hlook.unique hlook'
      rw [← hres] at hres'
      obtain ⟨ip, rfl, hip⟩ := Option.map_eq_some_iff.mp hres'.symm
      exact ⟨ip, t, hrun, hip.trans hinum⟩

/-- The root directory with one entry, which is the directory itself. -/
def rootInode : Dinode :=
  { Dinode.zero with type := tDir, nlink := 1, size := 16, addrs := fun k => if k = 0 then 60 else 0 }

def rootFs : Fs where
  disk b :=
    if b = 2 then putDinode zero ROOTINO rootInode else if b = 60 then put zero 0 (encodeDirent ROOTINO [46]) else zero
  sb := { size := 100, nblocks := 90, ninodes := 2, nlog := 0, logstart := 2, inodestart := 2, bmapstart := 3 }
  inode ip := { inum := ROOTINO, ref := if ip = 0 then 1 else 0, locked := false, valid := false, din := Dinode.zero }
  input := []

theorem rootFs_dinode : rootFs.dinode ROOTINO = rootInode := getDinode_put_same zero ROOTINO rootInode

theorem rootFs_contents : rootFs.contents ROOTINO = encodeDirent ROOTINO [46] := by decide +kernel

theorem rootFs_root : rootFs.Named ROOTINO := by
  refine ⟨⟨by decide, ?_⟩, ?_⟩
  · rw [rootFs_dinode]
    decide
  · rw [rootFs_dinode]
    decide

theorem rootFs_allocated {i : Nat} (h : rootFs.Allocated i) : i = ROOTINO := by
  obtain ⟨hlt, htype⟩ := h
  have hlt : i < 2 := hlt
  have hzero : (rootFs.dinode 0).type = 0 := by decide +kernel
  have hne : i ≠ 0 := fun hi => htype (hi ▸ hzero)
  show i = 1
  omega

theorem rootFs_tree : rootFs.Tree where
  block i hi := by
    have hi : i < 2 := hi
    rcases (by omega : i = 0 ∨ i = 1) with rfl | rfl <;> decide
  root := rootFs_root
  dir i hi _ := by
    obtain rfl := rootFs_allocated hi
    refine ⟨⟨?_, ?_, fun bn hbn => ?_⟩, ?_, ?_⟩
    · rw [rootFs_dinode]
      decide
    · simp only [addrOf, rootFs_dinode]
      decide
    · rw [rootFs_dinode] at hbn
      have hsize : rootInode.size.toNat = 16 := rfl
      obtain rfl : bn = 0 := by
        rw [hsize] at hbn
        simp only [BSIZE] at hbn
        omega
      have haddr : addrOf rootFs.disk rootFs.dinode (.data ROOTINO 0) = 60 := by
        simp only [addrOf, rootFs_dinode]
        rfl
      rw [haddr]
      decide
    · rw [rootFs_dinode]
      rfl
    · rw [rootFs_dinode]
      rfl
  entry i name j hi _ hj := by
    obtain rfl := rootFs_allocated hi
    obtain ⟨off, hfind, rfl⟩ := Option.map_eq_some_iff.mp hj
    have hoff := List.mem_of_find?_eq_some hfind
    rw [rootFs_contents] at hoff ⊢
    have hzero : off = 0 := by
      have hmem := (mem_direntOffsets (by decide)).mp hoff
      have hlen : (encodeDirent ROOTINO [46]).length = 16 := rfl
      omega
    subst hzero
    have hinum : direntInum (direntAt (encodeDirent ROOTINO [46]) 0) = ROOTINO := by decide +kernel
    rw [hinum]
    exact rootFs_root
  cached _ _ := rootFs_root.1
  coherent ip _ hvalid := by cases hvalid

theorem path_resolution_dots : ∃ r t, Returns (namei 0 [47, 46, 47, 46]) rootFs r t ∧
    r.map (fun ip => (t.inode ip).inum) = some ROOTINO := by
  have hrefs : rootFs.Refs (fun ip => if ip = 0 then 1 else 0) fun _ => false := by
    refine ⟨fun _ => rfl, fun _ => rfl, fun ip jp hi hj _ => ?_⟩
    have hzero : ∀ kp : InodeSlot, 0 < (if kp = 0 then 1 else 0) → kp = 0 := by
      intro kp hk
      by_contra hne
      simp [hne] at hk
    rw [hzero ip hi, hzero jp hj]
  obtain ⟨_, ⟨r, t, hrun, _, hres⟩, _⟩ :=
    path_resolution rootFs rootFs_tree _ hrefs ⟨1, 2, by decide, rfl, rfl⟩ 0 (by decide)
      [47, 46, 47, 46]
  refine ⟨r, t, hrun, hres.trans ?_⟩
  have hpath : components [47, 46, 47, 46] = [[46], [46]] := by decide
  have hdot : binding (encodeDirent ROOTINO [46]) [46] = some ROOTINO := by decide +kernel
  rw [hpath]
  show rootFs.resolve ROOTINO [[46], [46]] = some ROOTINO
  simp only [Fs.resolve, rootFs_dinode, rootFs_contents, hdot, Option.bind_some]
  rfl

end Xv6
