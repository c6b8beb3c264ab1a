import Xv6.Acyclic
import Xv6.Flow

namespace Xv6

namespace Flow

open Relation

/-- All of this stays inside of the tables and forks no more processes than that. -/
def Acts.Within (a : Acts) (bound : Nat) : Prop := a.inside = true ∧ a.forks ≤ bound

/-- It forks no more processes than the other, and stays inside of the tables if the other does. -/
def Acts.Part (a b : Acts) : Prop := a.forks ≤ b.forks ∧ (b.inside = true → a.inside = true)

theorem Acts.forks_andThen_exit (a : Acts) (status : Nat) :
    (a.andThen (.exit status)).forks = a.forks := by
  induction a with
  | run job next ih => simp only [andThen, forks, ih]
  | fork child next _ ih => simp only [andThen, forks, ih]
  | _ => rfl

theorem Acts.inside_andThen_exit (a : Acts) (status : Nat) :
    (a.andThen (.exit status)).inside = a.inside := by
  induction a with
  | run job next ih => simp only [andThen, inside, ih]
  | fork child next _ ih => simp only [andThen, inside, ih]
  | _ => rfl

theorem Acts.part_andThen (a k : Acts) : a.Part (a.andThen k) := by
  induction a with
  | run job next ih => exact ⟨Nat.succ_le_succ ih.1, ih.2⟩
  | fork child next _ ih =>
    refine ⟨Nat.succ_le_succ (Nat.add_le_add_left ih.1 _), fun h => ?_⟩
    obtain ⟨hchild, hnext⟩ := Bool.and_eq_true_iff.mp h
    exact Bool.and_eq_true_iff.mpr ⟨hchild, ih.2 hnext⟩
  | outside => exact ⟨Nat.zero_le _, id⟩
  | _ => exact ⟨Nat.zero_le _, fun _ => rfl⟩

theorem Acts.Within.andThen {a k : Acts} {m n : Nat} (ha : a.Within m) (hk : k.Within n) :
    (a.andThen k).Within (m + n) := by
  obtain ⟨hin, hm⟩ := ha
  obtain ⟨hkin, hn⟩ := hk
  induction a generalizing m with
  | ret => exact ⟨hkin, Nat.le_add_left_of_le hn⟩
  | run job next ih =>
    simp only [forks] at hm
    obtain ⟨hi, hf⟩ := ih hin (Nat.le_sub_one_of_lt hm)
    refine ⟨hi, ?_⟩
    simp only [Acts.andThen, forks]
    omega
  | fork child next _ ih =>
    obtain ⟨hchild, hnext⟩ := Bool.and_eq_true_iff.mp hin
    simp only [forks] at hm
    obtain ⟨hi, hf⟩ := ih hnext (Nat.le_refl _)
    refine ⟨Bool.and_eq_true_iff.mpr ⟨hchild, hi⟩, ?_⟩
    simp only [Acts.andThen, forks]
    omega
  | outside => cases hin
  | _ => exact ⟨rfl, Nat.zero_le _⟩

namespace Tables

variable (t : Tables)

/-- PipeExecution comes back to its caller. -/
def returns (pipeIndex : Nat) : Bool := (t.nodeSearch (t.pipes.getD pipeIndex {}).toName).isSome

/-- The pipes that the loop over the parts of a concatenation executes, with the places of these
parts. -/
def partCalls (concat : Concatenation) : Nat → Nat → List (Nat × Nat)
  | 0, _ => []
  | count + 1, i =>
    match concat.parts[i]? with
    | none => []
    | some part =>
      match t.nodeSearch part with
      | some _ => partCalls concat count (i + 1)
      | none =>
        match t.pipeSearch part with
        | some j => (i, j) :: if t.returns j then partCalls concat count (i + 1) else []
        | none => []

/-- The loop over the parts of a concatenation ends before the parts do. -/
def partsWithin (concat : Concatenation) : Nat → Nat → Bool
  | 0, _ => true
  | count + 1, i =>
    match concat.parts[i]? with
    | none => false
    | some part =>
      match t.nodeSearch part with
      | some _ => partsWithin concat count (i + 1)
      | none =>
        match t.pipeSearch part with
        | some j => !t.returns j || partsWithin concat count (i + 1)
        | none => true

/-- The name stands for something else than what is defined under it. -/
def Literal (name : Text) : Prop := name = mkdirName ∨ name = readName

instance (name : Text) : Decidable (Literal name) := inferInstanceAs (Decidable (_ ∨ _))

/-- The pipes that the child of pipeExecution executes. -/
def calls (pipeIndex : Nat) : List (Nat × Nat) :=
  let pipe := t.pipes.getD pipeIndex {}
  if Literal pipe.fromName then []
  else
    match t.concatSearch pipe.fromName with
    | some c =>
      let concat := t.concatenations.getD c {}
      t.partCalls concat concat.partCount.toNat 0
    | none =>
      match t.pipeSearch pipe.fromName with
      | some j => [(0, j)]
      | none => []

def Calls (i j : Nat) : Prop := ∃ k, (k, j) ∈ t.calls i

/-- The child of pipeExecution reads no part behind the last one of its concatenation. -/
def within (pipeIndex : Nat) : Bool :=
  let pipe := t.pipes.getD pipeIndex {}
  if Literal pipe.fromName then true
  else
    match t.concatSearch pipe.fromName with
    | some c =>
      let concat := t.concatenations.getD c {}
      t.partsWithin concat concat.partCount.toNat 0
    | none => true

variable {t} {concat : Concatenation} {path : Path} {output : Fd} {count i j k d : Nat}

theorem pipeExecution_returns (h : t.returns j = true) (next : Acts) :
    ∃ job, (t.pipeExecution (d + 1) j path output).andThen next =
      .fork (t.child (t.pipeExecution d) (t.pipes.getD j {}) path output) (.run job next) := by
  obtain ⟨n, hn⟩ := Option.isSome_iff_exists.mp h
  simp only [pipeExecution, hn]
  exact ⟨_, rfl⟩

theorem pipeExecution_exits (h : t.returns j = false) (next : Acts) :
    (t.pipeExecution d j path output).andThen next = t.pipeExecution d j path output := by
  have hn : t.nodeSearch (t.pipes.getD j {}).toName = none := by simpa [returns] using h
  cases d with
  | zero => rfl
  | succ d =>
    simp only [pipeExecution, hn]
    rfl

theorem mem_pipeCalls {j' : Nat} {l : List (Nat × Nat)} :
    (k, j) ∈ (i, j') :: (if t.returns j' then l else []) ↔
      (k = i ∧ j = j') ∨ (t.returns j' = true ∧ (k, j) ∈ l) := by
  rw [List.mem_cons, Prod.mk.injEq, List.mem_ite_nil_right]

theorem part_concat (h : (k, j) ∈ t.partCalls concat count i) :
    (t.pipeExecution (d + 1) j (k :: path) output).Part
      (t.concatExecution (t.pipeExecution (d + 1)) concat path output count i) := by
  fun_induction partCalls t concat count i with
  | case1 | case2 | case5 => exact absurd h List.not_mem_nil
  | case3 count i part hpart n hn ih =>
    simp only [concatExecution, hpart, hn]
    exact ⟨(ih h).1.trans (Nat.le_succ _), (ih h).2⟩
  | case4 count i part hpart hn j' hp ih =>
    simp only [concatExecution, hpart, hn, hp]
    rcases mem_pipeCalls.mp h with ⟨rfl, rfl⟩ | ⟨hret, h⟩
    · exact Acts.part_andThen _ _
    · obtain ⟨job, hjob⟩ := pipeExecution_returns hret
        (t.concatExecution (t.pipeExecution (d + 1)) concat path output count (i + 1))
      obtain ⟨hle, hin⟩ := ih h
      rw [hjob]
      refine ⟨?_, fun hall => hin (Bool.and_eq_true_iff.mp hall).2⟩
      simp only [Acts.forks]
      omega

theorem part_child (h : (k, j) ∈ t.calls i) :
    (t.pipeExecution (d + 1) j (k :: path) (.write path)).Part
      (t.child (t.pipeExecution (d + 1)) (t.pipes.getD i {}) path output) := by
  rw [calls] at h
  rw [child]
  by_cases hlit : Literal (t.pipes.getD i {}).fromName
  · simp only [hlit, if_true, List.not_mem_nil] at h
  · obtain ⟨hmkdir, hread⟩ := not_or.mp hlit
    rw [if_neg hmkdir, if_neg hread]
    simp only [hlit, if_false] at h
    unfold Acts.Part
    cases hc : t.concatSearch (t.pipes.getD i {}).fromName with
    | some c =>
      simp only [hc] at h ⊢
      rw [Acts.forks_andThen_exit, Acts.inside_andThen_exit]
      exact part_concat h
    | none =>
      cases hp : t.pipeSearch (t.pipes.getD i {}).fromName with
      | none => simp only [hc, hp, List.not_mem_nil] at h
      | some j' =>
        simp only [hc, hp, List.mem_singleton] at h ⊢
        obtain ⟨rfl, rfl⟩ := Prod.mk.inj h
        rw [Acts.forks_andThen_exit, Acts.inside_andThen_exit]
        exact ⟨Nat.le_refl _, id⟩

theorem partsWithin_of_inside
    (h : (t.concatExecution (t.pipeExecution (d + 1)) concat path output count i).inside = true) :
    t.partsWithin concat count i = true := by
  fun_induction partCalls t concat count i with
  | case1 => rfl
  | case2 count i hpart =>
    simp only [concatExecution, hpart] at h
    cases h
  | case3 count i part hpart n hn ih =>
    simp only [concatExecution, partsWithin, hpart, hn] at h ⊢
    exact ih h
  | case4 count i part hpart hn j hp ih =>
    simp only [concatExecution, partsWithin, hpart, hn, hp] at h ⊢
    cases hret : t.returns j with
    | false => rfl
    | true =>
      obtain ⟨job, hjob⟩ := pipeExecution_returns hret
        (t.concatExecution (t.pipeExecution (d + 1)) concat path output count (i + 1))
      rw [hjob] at h
      exact ih (Bool.and_eq_true_iff.mp h).2
  | case5 count i part hpart hn hp => simp only [partsWithin, hpart, hn, hp]

theorem within_of_inside
    (h : (t.child (t.pipeExecution (d + 1)) (t.pipes.getD i {}) path output).inside = true) :
    t.within i = true := by
  rw [child] at h
  rw [within]
  by_cases hlit : Literal (t.pipes.getD i {}).fromName
  · simp only [hlit, if_true]
  · obtain ⟨hmkdir, hread⟩ := not_or.mp hlit
    rw [if_neg hmkdir, if_neg hread] at h
    simp only [hlit, if_false]
    cases hc : t.concatSearch (t.pipes.getD i {}).fromName with
    | some c =>
      simp only [hc, Acts.inside_andThen_exit] at h
      exact partsWithin_of_inside h
    | none => rfl

theorem forks_pipeExecution :
    (t.child (t.pipeExecution d) (t.pipes.getD i {}) path output).forks <
        (t.pipeExecution (d + 1) i path output).forks ∧
      (t.pipeExecution (d + 1) i path output).forks ≤
        (t.child (t.pipeExecution d) (t.pipes.getD i {}) path output).forks + 2 := by
  rw [pipeExecution]
  cases t.nodeSearch (t.pipes.getD i {}).toName <;> simp only [Acts.forks] <;> omega

theorem concat_bounded (hw : t.partsWithin concat count i = true)
    (h : ∀ k j, (k, j) ∈ t.partCalls concat count i → ∃ bound, ∀ d path output,
      (t.pipeExecution d j path output).Within bound) :
    ∃ bound, ∀ d path output,
      (t.concatExecution (t.pipeExecution d) concat path output count i).Within bound := by
  fun_induction partCalls t concat count i with
  | case1 => exact ⟨0, fun d path output => ⟨rfl, le_rfl⟩⟩
  | case2 count i hpart => simp only [partsWithin, hpart, Bool.false_eq_true] at hw
  | case3 count i part hpart n hn ih =>
    simp only [partsWithin, hpart, hn] at hw
    simp only [concatExecution, hpart, hn]
    obtain ⟨bound, hb⟩ := ih hw h
    exact ⟨bound + 1, fun d path output =>
      ⟨(hb d path output).1, Nat.succ_le_succ (hb d path output).2⟩⟩
  | case4 count i part hpart hn j hp ih =>
    simp only [partsWithin, hpart, hn, hp] at hw
    simp only [concatExecution, hpart, hn, hp]
    obtain ⟨bound, hb⟩ := h i j List.mem_cons_self
    cases hret : t.returns j with
    | false =>
      refine ⟨bound, fun d path output => ?_⟩
      rw [pipeExecution_exits hret]
      exact hb d _ _
    | true =>
      rw [hret] at hw
      obtain ⟨rest, hr⟩ := ih hw fun k j' hm => h k j' (mem_pipeCalls.mpr (.inr ⟨hret, hm⟩))
      exact ⟨bound + rest, fun d path output => (hb d _ _).andThen (hr d path output)⟩
  | case5 count i part hpart hn hp =>
    simp only [concatExecution, hpart, hn, hp]
    exact ⟨0, fun d path output => ⟨rfl, le_rfl⟩⟩

theorem child_bounded (hw : t.within i = true)
    (h : ∀ k j, (k, j) ∈ t.calls i → ∃ bound, ∀ d path output,
      (t.pipeExecution d j path output).Within bound) :
    ∃ bound, ∀ d path output,
      (t.child (t.pipeExecution d) (t.pipes.getD i {}) path output).Within bound := by
  simp only [calls] at h
  simp only [within] at hw
  simp only [child, Acts.Within]
  by_cases hmkdir : (t.pipes.getD i {}).fromName = mkdirName
  · refine ⟨3, fun d path output => ?_⟩
    rw [if_pos hmkdir]
    exact ⟨rfl, le_rfl⟩
  by_cases hread : (t.pipes.getD i {}).fromName = readName
  · refine ⟨1, fun d path output => ?_⟩
    rw [if_neg hmkdir, if_pos hread]
    exact ⟨rfl, le_rfl⟩
  simp only [Literal, hmkdir, hread, or_self, if_false] at h hw ⊢
  cases hc : t.concatSearch (t.pipes.getD i {}).fromName with
  | some c =>
    simp only [hc] at h hw ⊢
    obtain ⟨bound, hb⟩ := concat_bounded hw h
    refine ⟨bound, fun d path output => ?_⟩
    rw [Acts.forks_andThen_exit, Acts.inside_andThen_exit]
    exact hb d path _
  | none =>
    cases hp : t.pipeSearch (t.pipes.getD i {}).fromName with
    | some j =>
      simp only [hc, hp] at h ⊢
      obtain ⟨bound, hb⟩ := h 0 j List.mem_cons_self
      refine ⟨bound, fun d path output => ?_⟩
      rw [Acts.forks_andThen_exit, Acts.inside_andThen_exit]
      exact hb d _ _
    | none =>
      refine ⟨1, fun d path output => ?_⟩
      cases t.nodeSearch (t.pipes.getD i {}).fromName with
      | none => exact ⟨rfl, Nat.zero_le _⟩
      | some n => exact ⟨rfl, le_rfl⟩

theorem inside_pipeExecution :
    (t.pipeExecution (d + 1) i path output).inside =
      (t.child (t.pipeExecution d) (t.pipes.getD i {}) path output).inside := by
  rw [pipeExecution]
  cases t.nodeSearch (t.pipes.getD i {}).toName <;> simp only [Acts.inside, Bool.and_true]

/-- Calls that come to an end inside of the tables fork boundedly many processes. -/
theorem bounded_of_acc (h : Acc (fun x y => t.Calls y x) i)
    (hw : ∀ j, ReflTransGen t.Calls i j → t.within j = true) :
    ∃ bound, ∀ d path output, (t.pipeExecution d i path output).Within bound := by
  induction h with
  | intro i _ ih =>
    obtain ⟨bound, hb⟩ := child_bounded (hw i .refl) fun k j hm =>
      ih j ⟨k, hm⟩ fun j' hreach => hw j' (.head ⟨k, hm⟩ hreach)
    refine ⟨bound + 2, fun d path output => ?_⟩
    cases d with
    | zero => exact ⟨rfl, Nat.zero_le _⟩
    | succ d =>
      obtain ⟨hin, hle⟩ := hb d path output
      exact ⟨inside_pipeExecution.trans hin, forks_pipeExecution.2.trans (Nat.add_le_add_right hle 2)⟩

theorem inside_of_reach (hreach : ReflTransGen t.Calls i j)
    (h : ∀ d, (t.pipeExecution d i path output).inside = true) :
    ∃ path output, ∀ d, (t.pipeExecution d j path output).inside = true := by
  induction hreach with
  | refl => exact ⟨path, output, h⟩
  | tail _ hcall ih =>
    obtain ⟨path, output, hin⟩ := ih
    obtain ⟨k, hcall⟩ := hcall
    refine ⟨k :: path, .write path, fun d => ?_⟩
    cases d with
    | zero => rfl
    | succ d => exact (part_child hcall).2 (inside_pipeExecution.symm.trans (hin (d + 2)))

/-- Calls that do not come to an end fork more than any number of them. -/
theorem unbounded_of_not_acc (h : ¬ Acc (fun x y => t.Calls y x) i) (bound : Nat) (path : Path)
    (output : Fd) :
    ∃ d, bound < (t.pipeExecution (d + 1) i path output).forks := by
  induction bound generalizing i path output with
  | zero => exact ⟨0, Nat.zero_lt_of_lt forks_pipeExecution.1⟩
  | succ bound ih =>
    obtain ⟨j, ⟨k, hcall⟩, hj⟩ : ∃ j, t.Calls i j ∧ ¬ Acc (fun x y => t.Calls y x) j := by
      by_contra hno
      exact h (Acc.intro i fun j hj => by_contra fun hacc => hno ⟨j, hj, hacc⟩)
    obtain ⟨d, hd⟩ := ih hj (k :: path) (.write path)
    exact ⟨d + 1, (Nat.succ_le_of_lt hd).trans_lt
      ((part_child hcall).1.trans_lt forks_pipeExecution.1)⟩

theorem pipeSearch_lt {name : Text} (h : t.pipeSearch name = some j) : j < t.pipes.length :=
  (List.findIdx?_eq_some_iff_findIdx_eq.mp h).1

theorem partCalls_lt (h : (k, j) ∈ t.partCalls concat count i) : j < t.pipes.length := by
  fun_induction partCalls t concat count i with
  | case1 | case2 | case5 => exact absurd h List.not_mem_nil
  | case3 count i part hpart n hn ih => exact ih h
  | case4 count i part hpart hn j' hp ih =>
    rcases mem_pipeCalls.mp h with ⟨rfl, rfl⟩ | ⟨_, h⟩
    · exact pipeSearch_lt hp
    · exact ih h

theorem Calls.lt (h : t.Calls i j) : j < t.pipes.length := by
  obtain ⟨k, h⟩ := h
  unfold calls at h
  dsimp only at h
  split at h
  next => exact absurd h List.not_mem_nil
  next =>
    split at h
    next => exact partCalls_lt h
    next =>
      split at h
      next j' hp =>
        obtain ⟨rfl, rfl⟩ := Prod.mk.inj (List.mem_singleton.mp h)
        exact pipeSearch_lt hp
      next => exact absurd h List.not_mem_nil

theorem finite_reach (t : Tables) (i : Nat) : {j | ReflTransGen t.Calls i j}.Finite := by
  refine ((Set.finite_lt_nat t.pipes.length).insert i).subset fun j hj => ?_
  rcases ReflTransGen.cases_tail hj with rfl | ⟨_, _, hcall⟩
  · exact .inl rfl
  · exact .inr hcall.lt

/-- Boundedly many processes are forked, and none of them reads outside of the tables, just when no
pipe that is executed is executed again inside of its execution or comes from a concatenation that
is executed beyond its parts. -/
theorem forks_bounded_iff (t : Tables) (name : Text) :
    (∃ bound, ∀ depth, (t.execute depth name).inside = true ∧
      (t.execute depth name).forks ≤ bound) ↔
      ∀ i, t.pipeSearch name = some i → ∀ j, ReflTransGen t.Calls i j →
        ¬ TransGen t.Calls j j ∧ t.within j = true := by
  unfold execute
  cases hs : t.pipeSearch name with
  | none => simp [Acts.forks, Acts.inside]
  | some i =>
    simp only [Acts.forks_andThen_exit, Acts.inside_andThen_exit, Option.some.injEq, forall_eq',
      imp_and, forall_and]
    rw [← Acyclic.acc_iff (finite_reach t i)]
    constructor
    · rintro ⟨bound, hin, hb⟩
      refine ⟨?_, fun j hreach => ?_⟩
      · by_contra hacc
        obtain ⟨d, hd⟩ := unbounded_of_not_acc hacc bound [] .invalid
        exact absurd (hb (d + 1)) (Nat.not_le.mpr hd)
      · obtain ⟨path, output, hall⟩ := inside_of_reach hreach hin
        exact within_of_inside (inside_pipeExecution.symm.trans (hall 2))
    · rintro ⟨hacc, hw⟩
      obtain ⟨bound, hb⟩ := bounded_of_acc hacc hw
      exact ⟨bound, fun depth => (hb depth [] .invalid).1, fun depth => (hb depth [] .invalid).2⟩

/-- A pipe that comes from itself. -/
def selfPipe : Tables where
  nodes := [{ name := "count".toList, command := "wc".toList }]
  pipes := [{ name := "loop".toList, fromName := "loop".toList, toName := "count".toList }]

theorem file_selfPipe :
    file ["node=count\n".toList, "command=wc\n".toList, "pipe=loop\n".toList, "from=loop\n".toList,
      "to=count\n".toList] = some selfPipe := by decide

theorem selfPipe_unbounded :
    ¬ ∃ bound, ∀ depth acts,
      main (fun _ => some ["node=count\n".toList, "command=wc\n".toList, "pipe=loop\n".toList,
        "from=loop\n".toList,
        "to=count\n".toList]) depth ["self.flow".toList, "loop".toList] = some acts → acts.forks ≤ bound := by
  rintro ⟨bound, hb⟩
  have hcycle : selfPipe.Calls 0 0 := ⟨0, by decide⟩
  have hs : selfPipe.pipeSearch "loop".toList = some 0 := by decide
  obtain ⟨d, hd⟩ := unbounded_of_not_acc (fun h => Acyclic.not_cycle_of_acc h (.single hcycle))
    bound [] .invalid
  have hle := hb (d + 1) (selfPipe.execute (d + 1) "loop".toList)
    (by simp only [main, file_selfPipe, Option.map_some])
  simp only [execute, hs, Acts.forks_andThen_exit] at hle
  omega

end Tables

end Flow

end Xv6
