import Xv6.DirectoryMap
import Xv6.PathLookup

namespace Xv6

open Bytes Prog

/-- The path does not lead through this entry of the directory. -/
def Fs.Avoids (s : Fs) (dir : Nat) (name : Name) (i : Nat) (names : List Name) : Prop :=
  ∀ before after, names = before ++ name :: after → s.resolve i before ≠ some dir

/-- The tree of v is that of u without an entry. -/
structure Without (dir : Nat) (name : Name) (u v : Fs) : Prop where
  types : ∀ i, u.Allocated i → (v.dinode i).type = (u.dinode i).type
  bindings : ∀ i n, u.Allocated i → binding (v.contents i) n =
    if i = dir ∧ n = name then none else binding (u.contents i) n

section

variable {s t u v : Fs} {dp : InodeSlot} {off dir i j : Nat} {src : List Byte} {name : Name}

/-- The paths that are lost are those through the entry. -/
theorem Without.resolve_iff (h : Without dir name u v) (htree : u.Tree) (hi : u.Allocated i)
    (names : List Name) :
    v.resolve i names = some j ↔ u.resolve i names = some j ∧ u.Avoids dir name i names := by
  induction names generalizing i with
  | nil => exact ⟨fun hj => ⟨hj, fun _ _ he => by simp at he⟩, And.left⟩
  | cons n names ih =>
    unfold Fs.resolve
    rw [h.types i hi]
    by_cases htype : (u.dinode i).type = tDir
    · rw [if_pos htype, if_pos htype, h.bindings i n hi]
      by_cases hentry : i = dir ∧ n = name
      · obtain ⟨rfl, rfl⟩ := hentry
        rw [if_pos ⟨rfl, rfl⟩]
        exact ⟨fun hj => (by cases hj), fun hj => absurd rfl (hj.2 [] names rfl)⟩
      · rw [if_neg hentry]
        cases hbind : binding (u.contents i) n with
        | none => exact ⟨fun hj => (by cases hj), fun hj => (by cases hj.1)⟩
        | some k =>
          have hstep : ∀ before, u.resolve i (n :: before) = u.resolve k before := by
            intro before
            rw [Fs.resolve, if_pos htype, hbind, Option.bind_some]
          refine (ih (htree.entry i n k hi htype hbind).1).trans (and_congr Iff.rfl ⟨fun hj before after he => ?_, ?_⟩)
          · cases before with
            | nil =>
              obtain ⟨rfl, _⟩ := List.cons.inj he
              exact fun hd => hentry ⟨Option.some.inj hd, rfl⟩
            | cons first before =>
              obtain ⟨rfl, htail⟩ := List.cons.inj he
              rw [hstep]
              exact hj before after htail
          · intro hj before after he
            rw [← hstep]
            exact hj (n :: before) after (congrArg (n :: ·) he)
    · rw [if_neg htype, if_neg htype]
      exact ⟨fun hj => (by cases hj), fun hj => (by cases hj.1)⟩

theorem Wrote.kept (hw : Wrote dp off src s t) (h : s.OpenDir dp) (hi : i < s.sb.ninodes) :
    (t.dinode i).type = (s.dinode i).type ∧ (t.dinode i).nlink = (s.dinode i).nlink := by
  by_cases hd : i = (s.inode dp).inum
  · obtain ⟨a, ha⟩ := hw.slot
    have hnew := hw.opened.copy.2
    rw [ha] at hnew
    rw [hd, ← hnew, ← h.copy.2]
    exact ⟨rfl, rfl⟩
  · rw [hw.dinodes i hi hd]
    exact ⟨rfl, rfl⟩

theorem Wrote.allocated (hw : Wrote dp off src s t) (h : s.OpenDir dp) :
    t.Allocated i ↔ s.Allocated i := by
  unfold Fs.Allocated
  rw [hw.sb]
  exact and_congr_right fun hi => by rw [(hw.kept h hi).1]

theorem Wrote.tree (hw : Wrote dp off src s t) (h : s.OpenDir dp) (ht : t.OpenDir dp)
    (htree : s.Tree)
    (hentry : ∀ n j, binding (t.contents (s.inode dp).inum) n = some j → s.Named j) : t.Tree := by
  obtain ⟨a, ha⟩ := hw.slot
  have hinum : (t.inode dp).inum = (s.inode dp).inum := by rw [ha]
  have hnamed : ∀ {j}, s.Named j → t.Named j := fun hj =>
    ⟨(hw.allocated h).mpr hj.1, by rw [(hw.kept h hj.1.1).2]; exact hj.2⟩
  refine ⟨by rw [hw.sb]; exact htree.block, hnamed htree.root, fun i hi htype => ?_,
    fun i n j hi htype hj => ?_,
    fun ip hip => (hw.allocated h).mpr ?_, fun ip hip hvalid => (ht.sound.coherent ip hip hvalid).2⟩
  · have hs := (hw.allocated h).mp hi
    by_cases hd : i = (s.inode dp).inum
    · rw [hd, ← hinum]
      exact ht.dirOk
    · rw [hw.dinodes i hs.1 hd] at htype
      refine ht.sound.dirOk hi (by rw [hw.dinodes i hs.1 hd]; exact htype) ?_
      rw [hw.dinodes i hs.1 hd]
      exact (htree.dir i hs htype).whole
  · have hs := (hw.allocated h).mp hi
    by_cases hd : i = (s.inode dp).inum
    · rw [hd] at hj
      exact hnamed (hentry n j hj)
    · rw [hw.dinodes i hs.1 hd] at htype
      rw [(hw.others i hs hd).1] at hj
      exact hnamed (htree.entry i n j hs htype hj)
  · by_cases hd : ip = dp
    · rw [hd, hinum]
      exact h.copy.1
    · rw [hw.slots ip hd] at hip ⊢
      exact htree.cached ip hip

end

/-- The tree keeps its form under dirlink and under what unlink writes. The paths that come or go
are those through the entry. -/
theorem linked_paths (s : Fs) (htree : s.Tree) (dp : InodeSlot) (h : s.OpenDir dp) (dir : Nat)
    (hdir : (s.inode dp).inum = dir) (str : List Byte) :
    (∀ inum, s.Named inum → 0 < inum → inum < 2 ^ 16 →
      binding (s.contents dir) (nameOf str) = none →
      freeSlot (s.contents dir) + 16 ≤ MAXFILE * BSIZE →
      (missing s.disk s.files (touched dir (freeSlot (s.contents dir)) 16)).card ≤
        (freeBlocks s.sb s.disk).card →
      ∃ t, Returns (Dir.dirlink dp str inum) s true t ∧ t.OpenDir dp ∧ t.Tree ∧ ∀ i names, s.Allocated i →
        (∀ j, s.resolve i names = some j ↔ t.resolve i names = some j ∧ t.Avoids dir (nameOf str) i names) ∧
        (s.resolve i names = some dir → t.resolve i (names ++ [nameOf str]) = some inum)) ∧
    ∀ off, findEntry (s.contents dir) (nameOf str) = some off →
      ∃ t, Returns (writei dp (List.replicate 16 0) off) s (some 16) t ∧ t.OpenDir dp ∧ t.Tree ∧
        ∀ i names j, s.Allocated i →
          (t.resolve i names = some j ↔ s.resolve i names = some j ∧ s.Avoids dir (nameOf str) i names) := by
  subst hdir
  refine ⟨fun inum hnamed hpos hsmall hb hfits hfree => ?_, fun off hoff => ?_⟩
  · obtain ⟨t, hrun, hw, ht, hbind⟩ := dirlink_adds h hpos hsmall hb hfits hfree
    have htree' : t.Tree := by
      refine hw.tree h ht htree fun n j hj => ?_
      rw [hbind] at hj
      split at hj
      · exact Option.some.inj hj ▸ hnamed
      · exact htree.entry _ n j h.copy.1 h.dirOk.type hj
    have hwithout : Without (s.inode dp).inum (nameOf str) t s := by
      refine ⟨fun i hi => ?_, fun i n hi => ?_⟩
      · exact (hw.kept h ((hw.allocated h).mp hi).1).1.symm
      · by_cases hd : i = (s.inode dp).inum
        · by_cases hn : n = nameOf str
          · rw [hd, hn, if_pos ⟨rfl, rfl⟩, hb]
          · rw [if_neg fun h => hn h.2, hd, hbind, if_neg hn]
        · rw [if_neg fun h => hd h.1, (hw.others i ((hw.allocated h).mp hi) hd).1]
    refine ⟨t, (Dir.dirlink_eq ..).symm ▸ hrun, ht, htree', fun i names hi => ?_⟩
    have hiff := fun j => hwithout.resolve_iff (j := j) htree' ((hw.allocated h).mpr hi) names
    refine ⟨hiff, fun hd => ?_⟩
    have hlast := hbind (nameOf str)
    rw [if_pos rfl] at hlast
    have htype := (hw.kept h h.copy.1.1).1.trans h.dirOk.type
    rw [resolve_concat, ((hiff _).mp hd).1, Option.filter_some, if_pos (decide_eq_true htype),
      Option.bind_some, hlast]
  · obtain ⟨t, hrun, hw, ht, hbind⟩ := clear_removes h hoff
    refine ⟨t, hrun, ht, hw.tree h ht htree fun n j hj => ?_, fun i names j hi => ?_⟩
    · rw [hbind] at hj
      exact htree.entry _ n j h.copy.1 h.dirOk.type (Option.ite_none_left_eq_some.mp hj).2
    · refine Without.resolve_iff ⟨fun i hi => (hw.kept h hi.1).1, fun i n hi => ?_⟩ htree hi names
      by_cases hd : i = (s.inode dp).inum
      · simp only [hd, hbind, true_and]
      · rw [if_neg fun h => hd h.1, (hw.others i hi hd).1]

theorem oneInode_tree : oneInodeFs.Tree where
  block i hi := by
    have hi : i < 2 := hi
    rcases (by omega : i = 0 ∨ i = 1) with rfl | rfl <;> decide
  root := ⟨oneInode_allocated.mpr rfl, by rw [oneInode_dinode]; decide⟩
  dir i hi _ := oneInode_allocated.mp hi ▸ oneInode_openDir.dirOk
  entry i n j hi _ hj := by
    rw [oneInode_allocated.mp hi, oneInode_contents] at hj
    cases hj
  cached ip _ := oneInode_allocated.mpr rfl
  coherent ip _ _ := oneInode_dinode.symm

theorem linked_paths_first : ∃ t, Returns (Dir.dirlink 0 [97, 98] 1) oneInodeFs true t ∧ t.Tree ∧
    t.resolve 1 [[97, 98]] = some 1 := by
  obtain ⟨hlink, _⟩ := linked_paths oneInodeFs oneInode_tree 0 oneInode_openDir 1 rfl [97, 98]
  rw [oneInode_contents] at hlink
  obtain ⟨t, hrun, _, ht, hpaths⟩ :=
    hlink 1 oneInode_tree.root (by decide) (by decide) rfl (by decide)
    (oneInode_space (by decide) _ _)
  exact ⟨t, hrun, ht, (hpaths 1 [] oneInode_tree.root.1).2 rfl⟩

end Xv6
