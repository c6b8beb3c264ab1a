import Mathlib.Algebra.Group.Int.Defs
import Mathlib.Algebra.Group.Nat.Defs
import Mathlib.Data.List.GetD
import Xv6.TraceHistory

namespace Xv6

namespace TraceBuf

/-- The arrays that syscall and its helpers fill, byte by byte: a store or a load outside its array
is none. -/
def store {n : Nat} (a : Fin n → Char) (i : Nat) (c : Char) : Option (Fin n → Char) :=
  if h : i < n then some (Function.update a ⟨i, h⟩ c) else none

def load {n : Nat} (a : Fin n → Char) (i : Nat) : Option Char := if h :
    i < n then some (a ⟨i, h⟩) else none

/-- The loop that stores a string from index i on, without its zero; the array and the next index.
-/
def string {n : Nat} : Text → (Fin n → Char) → Nat → Option ((Fin n → Char) × Nat)
  | [], a, i => some (a, i)
  | c :: s, a, i => (store a i c).bind fun a => string s a (i + 1)

/-- The array processN has the length of the name; the zero is stored behind the loop. -/
def copyName (name : Text) (processN : Fin name.length → Char) : Option (Fin name.length → Char) :=
  (string name processN 0).bind fun (processN, i) => store processN i nul

/-- The loop over the digits in pid_to_string and in number_to_string. An int has no more than ten.
-/
def digitLoop : Nat → Int → (Fin 5 → Char) → Nat → Option ((Fin 5 → Char) × Nat)
  | 0, num, pidS, j => if num = 0 then some (pidS, j) else none
  | n + 1, num, pidS, j =>
    if num = 0 then some (pidS, j)
    else (store pidS j (Char.ofNat (48 + num.tmod 10).toNat)).bind fun pidS =>
      digitLoop n (num.tdiv 10) pidS (j + 1)

def pidToString (pid : Int) (pidS : Fin 5 → Char) : Option (Fin 5 → Char) :=
  (digitLoop 10 pid pidS 0).map Prod.fst

/-- The loop while(pidS[index] != 0) index++. -/
def scan (pidS : Fin 5 → Char) : Nat → Nat → Option Nat
  | 0, _ => none
  | n + 1, index => (load pidS index).bind fun c => if c = nul then some index
    else scan pidS n (index + 1)

/-- The loop that copies the first digits of pidS to straceBuf, the last one first. -/
def reverse (pidS : Fin 5 → Char) : Nat → (Fin 100 → Char) → Nat → Option ((Fin 100 → Char) × Nat)
  | 0, b, i => some (b, i)
  | j + 1, b, i => (load pidS j).bind fun c => (store b i c).bind fun b => reverse pidS j b (i + 1)

/-- pidS is the array of number_to_string before anything is stored. -/
def numberToString (pidS : Fin 5 → Char) (num : Int) (b : Fin 100 → Char) (i : Nat) :
    Option ((Fin 100 → Char) × Nat) :=
  if num = 0 then (store b i (Char.ofNat (48 + num).toNat)).map fun b => (b, i + 1)
  else (digitLoop 10 num pidS 0).bind fun (pidS, j) => reverse pidS j b i

/-- The digits of the pid, in both functions that make a record. -/
def pidPart (pid : Int) (b : Fin 100 → Char) (i : Nat) : Option ((Fin 100 → Char) × Nat) :=
  (pidToString pid fun _ => nul).bind fun pidS => (scan pidS 6 0).bind fun index =>
    reverse pidS index b i

/-- What create_strace and strace_return have in common: the text up to the name of the call. -/
def head (b : Fin 100 → Char) (pid : Int) (processN name : Text) :
    Option ((Fin 100 → Char) × Nat) := do
  let (b, i) ← string "TRACE: pid = ".toList b 0
  let (b, i) ← pidPart pid b i
  let (b, i) ← string [' '] b i
  let (b, i) ← string " | command name = ".toList b i
  let (b, i) ← string [' '] b i
  let (b, i) ← string (cstr processN) b i
  let (b, i) ← string [' '] b i
  let (b, i) ← string " | syscall = ".toList b i
  let (b, i) ← string [' '] b i
  string name b i

def createStrace (b : Fin 100 → Char) (pid : Int) (processN name : Text) :
    Option (Fin 100 → Char) := do
  let (b, i) ← head b pid processN name
  store b i nul

def straceReturn (pidS : Fin 5 → Char) (b : Fin 100 → Char) (pid : Int) (processN name : Text)
    (returnV : Int) :
    Option (Fin 100 → Char) := do
  let (b, i) ← head b pid processN name
  let (b, i) ← string [' '] b i
  let (b, i) ← string " | return value = ".toList b i
  let (b, i) ← numberToString pidS returnV b i
  store b i nul

section

variable {n i j : Nat} {a : Fin n → Char} {t u : Text} {c : Char}

/-- The array with a text stored from index i on. -/
def write (a : Fin n → Char) (i : Nat) (t : Text) : Fin n → Char := fun k =>
  if i ≤ k.val ∧ k.val < i + t.length then t.getD (k.val - i) nul else a k

theorem write_nil : write a i [] = a := by
  funext k
  exact if_neg (by simp)

theorem write_cons (h : i < n) :
    write (Function.update a ⟨i, h⟩ c) (i + 1) t = write a i (c :: t) := by
  funext k
  unfold write
  by_cases hk : k.val = i
  · have hki : k = ⟨i, h⟩ := Fin.ext hk
    rw [if_neg (by omega), if_pos (by simp; omega), hki, Function.update_self]
    simp
  · have hki : k ≠ ⟨i, h⟩ := fun he => hk (congrArg Fin.val he)
    rw [Function.update_of_ne hki]
    by_cases hin : i + 1 ≤ k.val ∧ k.val < i + 1 + t.length
    · rw [if_pos hin, if_pos (by simp; omega), show k.val - i = k.val - (i + 1) + 1 by omega,
        List.getD_cons_succ]
    · rw [if_neg hin, if_neg (by simp; omega)]

/-- The loop stores the whole string, or it leaves the array. -/
theorem string_eq (hi : i ≤ n) :
    string t a i = if i + t.length ≤ n then some (write a i t, i + t.length) else none := by
  induction t generalizing a i with
  | nil => rw [string, write_nil, List.length_nil, Nat.add_zero, if_pos hi]
  | cons c t ih =>
    rw [string, List.length_cons]
    by_cases h : i < n
    · rw [store, dif_pos h, Option.bind_some, ih h, write_cons h,
        show i + 1 + t.length = i + (t.length + 1) by omega]
    · rw [store, dif_neg h, if_neg (by omega)]
      rfl

theorem string_append : string (t ++ u) a i = (string t a i).bind fun (a, i) => string u a i := by
  induction t generalizing a i with
  | nil => rfl
  | cons c t ih =>
    rw [List.cons_append, string, string, Option.bind_assoc]
    congr 1
    funext a
    exact ih

theorem store_eq_string : store a i c = (string [c] a i).map Prod.fst := by
  rw [string]
  cases store a i c with
  | none => rfl
  | some a => rfl

theorem digitLoop_eq {num : Int} {pidS : Fin 5 → Char} (h : num.natAbs < 10 ^ n) :
    digitLoop n num pidS j = string (digits n num) pidS j := by
  induction n generalizing num pidS j with
  | zero =>
    have hnum : num = 0 := by omega
    rw [digitLoop, if_pos hnum]
    rfl
  | succ n ih =>
    rw [digitLoop, digits]
    by_cases hnum : num = 0
    · rw [if_pos hnum, if_pos hnum]
      rfl
    · rw [if_neg hnum, if_neg hnum, string]
      congr 1
      funext pidS
      refine ih ?_
      rw [Int.natAbs_tdiv]
      have : num.natAbs < 10 * 10 ^ n := by rwa [Nat.pow_succ, Nat.mul_comm] at h
      exact Nat.div_lt_of_lt_mul this

theorem load_write (hi : i < t.length) (hn : i < n) :
    load (write a 0 t) i = some (t.getD i nul) := by
  rw [load, dif_pos hn, write, if_pos ⟨Nat.zero_le _, by show i < 0 + t.length; omega⟩]
  rfl

theorem reverse_eq {pidS : Fin 5 → Char} {b : Fin 100 → Char} (ht : t.length ≤ 5) :
    reverse (write pidS 0 t) t.length b i = string t.reverse b i := by
  suffices h : ∀ k ≤ t.length, ∀ b i, reverse (write pidS 0 t) k b i =
    string (t.take k).reverse b i by
    have := h t.length (Nat.le_refl _) b i
    rwa [List.take_length] at this
  intro k
  induction k with
  | zero => exact fun _ _ _ => rfl
  | succ k ih =>
    intro hk b i
    have htake : (t.take (k + 1)).reverse = t.getD k nul :: (t.take k).reverse := by
      rw [List.take_succ_eq_append_getElem (by omega), List.reverse_append,
        List.getD_eq_getElem _ _ (by omega)]
      rfl
    rw [reverse, load_write (by omega) (by omega), Option.bind_some, htake, string]
    congr 1
    funext b
    exact ih (by omega) b (i + 1)

theorem scan_eq (ht : t.length ≤ 5) (hnul : NulFree t) :
    scan (write (fun _ => nul) 0 t) 6 0 = if t.length < 5 then some t.length else none := by
  suffices h : ∀ k ≤ t.length, ∀ m, scan (write (fun _ => nul) 0 t) (k + m + 1) (t.length - k) =
      if t.length < 5 then some t.length else none by
    have := h t.length (Nat.le_refl _) (5 - t.length)
    rwa [show t.length + (5 - t.length) + 1 = 6 by omega, Nat.sub_self] at this
  intro k
  induction k with
  | zero =>
    intro _ m
    rw [scan, Nat.sub_zero]
    by_cases h5 : t.length < 5
    · rw [load, dif_pos h5, write,
        if_neg (by show ¬(0 ≤ t.length ∧ t.length < 0 + t.length); omega), if_pos h5]
      rfl
    · rw [load, dif_neg h5, if_neg h5]
      rfl
  | succ k ih =>
    intro hk m
    have hlt : t.length - (k + 1) < t.length := by omega
    have hne : t.getD (t.length - (k + 1)) nul ≠ nul := by
      rw [List.getD_eq_getElem _ _ hlt]
      exact hnul _ (List.getElem_mem hlt)
    rw [scan, load_write hlt (by omega), Option.bind_some, if_neg hne,
      show t.length - (k + 1) + 1 = t.length - k by omega, show k + 1 + m = k + m + 1 by omega]
    exact ih (by omega) m

theorem int_lt {v : Int} (hlo : -2 ^ 31 ≤ v) (hhi : v < 2 ^ 31) : v.natAbs < 10 ^ 10 := by omega

theorem pidPart_eq {pid : Int} {b : Fin 100 → Char} (hlo : -2 ^ 31 ≤ pid) (hhi : pid < 2 ^ 31) :
    pidPart pid b i = (Xv6.pidToString pid).bind fun t => string t b i := by
  rw [pidPart, pidToString, digitLoop_eq (int_lt hlo hhi), string_eq (Nat.zero_le 5),
    Xv6.pidToString, Nat.zero_add]
  by_cases h5 : (digits 10 pid).length ≤ 5
  · rw [if_pos h5, Option.map_some, Option.bind_some, scan_eq h5 nulFree_digits]
    by_cases h4 : (digits 10 pid).length < 5
    · rw [if_pos h4, if_pos h4, Option.bind_some, Option.bind_some, reverse_eq h5]
    · rw [if_neg h4, if_neg h4]
      rfl
  · rw [if_neg h5, if_neg (by omega)]
    rfl

theorem numberToString_eq {num : Int} {pidS : Fin 5 → Char} {b : Fin 100 → Char}
    (hlo : -2 ^ 31 ≤ num)
    (hhi : num < 2 ^ 31) : numberToString pidS num b i = (Xv6.numberToString num).bind fun t =>
      string t b i := by
  rw [numberToString, Xv6.numberToString]
  by_cases h0 : num = 0
  · have hzero : Char.ofNat (48 + 0 : Int).toNat = '0' := by decide
    rw [if_pos h0, if_pos h0, Option.bind_some, string, h0, hzero]
    cases store b i '0' <;> rfl
  · rw [if_neg h0, if_neg h0, digitLoop_eq (int_lt hlo hhi), string_eq (Nat.zero_le 5),
      Nat.zero_add]
    by_cases h5 : (digits 10 num).length ≤ 5
    · rw [if_pos h5, if_pos h5, Option.bind_some, Option.bind_some]
      exact reverse_eq h5
    · rw [if_neg h5, if_neg h5]
      rfl

variable {pid : Int} {processN name : Text} {b : Fin 100 → Char}

theorem head_eq (hlo : -2 ^ 31 ≤ pid) (hhi : pid < 2 ^ 31) :
    head b pid processN name = (Xv6.pidToString pid).bind fun p =>
      string (headText p processN name) b 0 := by
  unfold head headText
  generalize "TRACE: pid = ".toList = s1
  generalize " | command name = ".toList = s2
  generalize " | syscall = ".toList = s3
  generalize [' '] = sp
  simp only [pidPart_eq hlo hhi]
  cases Xv6.pidToString pid with
  | none =>
    cases string s1 b 0 <;> rfl
  | some p =>
    simp only [string_append, Option.bind_some, Option.bind_assoc]
    rfl

theorem createStrace_eq (hlo : -2 ^ 31 ≤ pid) (hhi : pid < 2 ^ 31) :
    createStrace b pid processN name = (Xv6.pidToString pid).bind fun p =>
      (string (headText p processN name ++ [nul]) b 0).map Prod.fst := by
  unfold createStrace
  rw [head_eq hlo hhi, Option.bind_eq_bind, Option.bind_assoc]
  refine congrArg _ (funext fun p => ?_)
  rw [string_append]
  generalize string (headText p processN name) b 0 = o
  cases o with
  | none => rfl
  | some x => exact store_eq_string

theorem straceReturn_eq {pidS : Fin 5 → Char} {v : Int} (hlo : -2 ^ 31 ≤ pid) (hhi : pid < 2 ^ 31)
    (hvlo : -2 ^ 31 ≤ v) (hvhi : v < 2 ^ 31) :
    straceReturn pidS b pid processN name v =
      (Xv6.pidToString pid).bind fun p => (Xv6.numberToString v).bind fun value =>
        (string (headText p processN name ++ [' '] ++ " | return value = ".toList ++ value ++ [nul]) b 0).map
          Prod.fst := by
  unfold straceReturn
  generalize " | return value = ".toList = s5
  generalize [' '] = sp
  rw [head_eq hlo hhi, Option.bind_eq_bind, Option.bind_assoc]
  refine congrArg _ (funext fun p => ?_)
  simp only [store_eq_string, string_append, numberToString_eq hvlo hvhi]
  generalize string (headText p processN name) b 0 = o
  cases Xv6.numberToString v with
  | none =>
    cases o with
    | none => rfl
    | some x => cases string sp x.1 x.2 <;> simp
  | some value =>
    simp only [Option.bind_some, Option.map_bind, Option.bind_assoc, Function.comp_def]

theorem string_zero_eq : (string (t ++ [nul]) b 0).map Prod.fst =
    if t.length < 100 then some (write b 0 (t ++ [nul])) else none := by
  rw [string_eq (Nat.zero_le 100), Nat.zero_add, List.length_append, List.length_singleton]
  by_cases h : t.length < 100
  · rw [if_pos h, if_pos (show t.length + 1 ≤ 100 by omega), Option.map_some]
  · rw [if_neg h, if_neg (by omega), Option.map_none]

theorem slotText_write (hl : t.length < 100) (hnul : NulFree t) :
    slotText (write b 0 (t ++ [nul])) = t := by
  have hsplit : List.ofFn (write b 0 (t ++ [nul])) =
      t ++ (List.ofFn (write b 0 (t ++ [nul]))).drop t.length := by
    refine (List.take_append_drop t.length _).symm.trans (congrArg (· ++ _) ?_)
    apply List.ext_getElem
    · rw [List.length_take, List.length_ofFn]
      omega
    · intro j h1 h2
      rw [List.getElem_take, List.getElem_ofFn, write, if_pos (by simp; omega), Nat.sub_zero,
        List.getD_append t _ nul j h2, List.getD_eq_getElem t nul h2]
  have hend : ((List.ofFn (write b 0 (t ++ [nul]))).drop t.length).takeWhile (fun c => c ≠ nul) =
      [] := by
    rw [List.drop_eq_getElem_cons (by rw [List.length_ofFn]; exact hl), List.getElem_ofFn, write,
      if_pos (by simp), Nat.sub_zero, List.getD_append_right t _ nul _ (Nat.le_refl _), Nat.sub_self]
    exact List.takeWhile_cons_of_neg (by simp)
  unfold slotText cstr
  rw [hsplit, List.takeWhile_append_of_pos (by simpa [NulFree] using hnul), hend, List.append_nil]

theorem string_slotText (hnul : NulFree t) :
    ((string (t ++ [nul]) b 0).map Prod.fst).map slotText = straceBuf t := by
  rw [string_zero_eq, straceBuf]
  by_cases h : t.length < 100
  · rw [if_pos h, if_pos h, Option.map_some, slotText_write h hnul]
  · rw [if_neg h, if_neg h, Option.map_none]

/-- What create_strace leaves in straceBuf is the record. -/
theorem createStrace_refines {mem : Int → Text} {num : Int} (hlo : -2 ^ 31 ≤ pid)
    (hhi : pid < 2 ^ 31) :
    (createStrace b pid processN (nameAt mem num)).map slotText =
      Xv6.createStrace mem pid processN num := by
  rw [createStrace_eq hlo hhi, Xv6.createStrace, Option.bind_eq_bind]
  cases hp : Xv6.pidToString pid with
  | none => rw [Option.bind_none, Option.bind_none, Option.map_none]
  | some p =>
    rw [Option.bind_some, Option.bind_some]
    exact string_slotText (nulFree_headText (nulFree_pidToString hp) nulFree_nameAt)

theorem createStrace_refines_read :
    (createStrace (fun _ => 'x') 1 "init".toList (nameAt (fun _ => []) 5)).map slotText =
      some "TRACE: pid = 1  | command name =  init  | syscall =  read".toList := by
  rw [createStrace_refines (by decide) (by decide)]
  decide

theorem straceReturn_refines {mem : Int → Text} {num v : Int} {pidS : Fin 5 → Char}
    (hlo : -2 ^ 31 ≤ pid) (hhi : pid < 2 ^ 31) (hvlo : -2 ^ 31 ≤ v) (hvhi : v < 2 ^ 31) :
    (straceReturn pidS b pid processN (nameAt mem num) v).map slotText =
      Xv6.straceReturn mem pid processN num v := by
  rw [straceReturn_eq hlo hhi hvlo hvhi, Xv6.straceReturn, Option.bind_eq_bind]
  cases hp : Xv6.pidToString pid with
  | none => rw [Option.bind_none, Option.bind_none, Option.map_none]
  | some p =>
    rw [Option.bind_some, Option.bind_some]
    cases hv : Xv6.numberToString v with
    | none => rw [Option.bind_none, Option.bind_none, Option.map_none]
    | some value =>
      rw [Option.bind_some, Option.bind_some]
      refine string_slotText ?_
      simp only [nulFree_append, nulFree_headText (nulFree_pidToString hp) nulFree_nameAt,
        nulFree_numberToString hv, and_true, true_and]
      decide

theorem straceReturn_refines_read :
    (straceReturn (fun _ => 'x') (fun _ => 'x') 1 "init".toList (nameAt (fun _ => []) 5) 30).map
      slotText =
      some "TRACE: pid = 1  | command name =  init  | syscall =  read  | return value = 30".toList := by
  rw [straceReturn_refines (by decide) (by decide) (by decide) (by decide)]
  decide

theorem pidToString_length {p : Text} (h : Xv6.pidToString pid = some p) : p.length ≤ 4 := by
  obtain ⟨hlen, rfl⟩ := Runs.of_guard h
  rw [List.length_reverse]
  omega

theorem numberToString_length {v : Int} {p : Text} (h : Xv6.numberToString v = some p) :
    p.length ≤ 5 := by
  unfold Xv6.numberToString at h
  split at h
  next =>
    rw [← Option.some.inj h]
    decide
  next =>
    obtain ⟨hlen, rfl⟩ := Runs.of_guard h
    rwa [List.length_reverse]

theorem name_length {num : Int} {call : String} (h : syscallnames.lookup num = some call) :
    call.toList.length ≤ 6 := by
  have htable : ∀ e ∈ syscallnames, e.2.toList.length ≤ 6 := by decide
  obtain ⟨l, m, hsplit, _⟩ := List.lookup_eq_some_iff.mp h
  exact htable (num, call) (by rw [hsplit]; simp)

theorem string_isSome : (string t b 0).isSome ↔ t.length ≤ 100 := by
  rw [string_eq (Nat.zero_le 100), Nat.zero_add]
  by_cases h : t.length ≤ 100
  · rw [if_pos h]
    exact ⟨fun _ => h, fun _ => rfl⟩
  · rw [if_neg h]
    exact ⟨fun hn => absurd hn (by simp), fun hle => absurd hle h⟩

theorem headText_length {p : Text} (hname : NulFree processN) :
    (headText p processN name).length = 48 + p.length + processN.length + name.length := by
  have h1 : "TRACE: pid = ".toList.length = 13 := by decide
  have h2 : " | command name = ".toList.length = 18 := by decide
  have h3 : " | syscall = ".toList.length = 13 := by decide
  unfold headText
  rw [cstr_eq fun h => hname _ h rfl]
  simp only [List.length_append, List.length_singleton, h1, h2, h3]
  omega

end

end TraceBuf

open TraceBuf in
/-- The loop over the name stays inside processN, but its zero never does. All other stores of a
traced call are inside their arrays if the pid has at most four digits and the return value at most
five. -/
theorem trace_stores_inside_iff {name : Text} {pid num v : Int} {call : String}
    (hname : name.length ≤ 15) (hnul : NulFree name) (hpid : 1 ≤ pid) (hpid' : pid < 2 ^ 31)
    (hcall : syscallnames.lookup num = some call) (hvlo : -2 ^ 31 ≤ v) (hvhi : v < 2 ^ 31)
    (processN : Fin name.length → Char) (b : Fin 100 → Char) (pidS : Fin 5 → Char) :
    (string name processN 0).isSome ∧ copyName name processN = none ∧
      ((TraceBuf.createStrace b pid name call.toList).isSome ↔ pid < 10000) ∧
      ((TraceBuf.straceReturn pidS b pid name call.toList v).isSome ↔
        pid < 10000 ∧ -100000 < v ∧ v < 100000) := by
  have hlo : -2 ^ 31 ≤ pid := by omega
  have hcalllen := name_length hcall
  have hcopy : string name processN 0 = some (write processN 0 name, name.length) := by
    rw [string_eq (Nat.zero_le _), Nat.zero_add, if_pos (Nat.le_refl _)]
  have hdigits : (Xv6.pidToString pid).isSome ↔ pid < 10000 := by
    rw [pidToString_eq_ite, Option.isSome_ite]
    omega
  have hvalue : (Xv6.numberToString v).isSome ↔ -100000 < v ∧ v < 100000 := by
    rw [numberToString_eq_ite, Option.isSome_ite]
    omega
  refine ⟨by rw [hcopy]; rfl, ?_, ?_, ?_⟩
  · rw [copyName, hcopy]
    exact dif_neg (Nat.lt_irrefl _)
  · rw [createStrace_eq hlo hpid', ← hdigits]
    cases hp : Xv6.pidToString pid with
    | none => exact ⟨fun h => h, fun h => h⟩
    | some p =>
      have hplen := pidToString_length hp
      rw [Option.bind_some, Option.isSome_map, string_isSome, List.length_append, headText_length hnul]
      refine ⟨fun _ => rfl, fun _ => ?_⟩
      rw [List.length_singleton]
      omega
  · rw [straceReturn_eq hlo hpid' hvlo hvhi, ← hdigits, ← hvalue]
    cases hp : Xv6.pidToString pid with
    | none => exact ⟨fun h => absurd h (by simp), fun h => h.1⟩
    | some p =>
      rw [Option.bind_some]
      cases hv : Xv6.numberToString v with
      | none => exact ⟨fun h => absurd h (by simp), fun h => h.2⟩
      | some value =>
        have hplen := pidToString_length hp
        have hvlen := numberToString_length hv
        have h5 : " | return value = ".toList.length = 18 := by decide
        rw [Option.bind_some, Option.isSome_map, string_isSome]
        refine ⟨fun _ => ⟨rfl, rfl⟩, fun _ => ?_⟩
        simp only [List.length_append, List.length_singleton, headText_length hnul, h5]
        omega

open TraceBuf in
theorem trace_stores_inside_iff_fork :
    (TraceBuf.createStrace (fun _ => nul) 3 "sh".toList "fork".toList).isSome ∧
      (TraceBuf.straceReturn (fun _ => nul) (fun _ => nul) 3 "sh".toList "fork".toList 4).isSome := by
  obtain ⟨_, _, hcreate, hreturn⟩ :=
    @trace_stores_inside_iff "sh".toList 3 1 4 "fork" (by decide) (by decide)
    (by decide) (by decide) (by decide) (by decide) (by decide) (fun _ => nul) (fun _ => nul)
      (fun _ => nul)
  exact ⟨hcreate.mpr (by decide), hreturn.mpr (by decide)⟩

open TraceBuf in
/-- The zero of the name "sh" does not fit its array; nor does a pid of five digits or a value of
six. -/
theorem trace_stores_outside :
    (copyName "sh".toList fun _ => nul).isNone ∧
      (TraceBuf.createStrace (fun _ => nul) 10000 "sh".toList "fork".toList).isNone ∧
      (TraceBuf.straceReturn (fun _ => nul) (fun _ => nul) 3 "sh".toList "sbrk".toList 100000).isNone := by
  decide +kernel

end Xv6
